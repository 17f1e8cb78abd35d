import FwkMlib.Osal.PosixMq
import Mathlib.Algebra.Group.Int.Defs
import Mathlib.Data.List.Basic
import Mathlib.Data.List.TakeWhile

/-!
# Names of POSIX message queues

`osal_posix_mq_create` and `osal_posix_mq_destroy` when `no_use_lock_free_queue` is defined: the mq is
a kernel queue, found by the name kept in the mq. Strings are lists of bytes without a zero; the name
member of the block is the list of its bytes.

`osalPosixMqCreate_name` : the name that reaches the kernel is one character short.
-/

namespace FwkMlib.Osal.Mqueue

/-- `'/'`. -/
def slash : UInt8 := 47

/-- `snprintf(dst, n, "%s", s)`; `none` when it writes behind `dst`. -/
def snprintf (dst : List UInt8) (n : Nat) (s : List UInt8) : Option (List UInt8) :=
  if n = 0 then some dst
  else if (s.take (n - 1)).length + 1 ≤ dst.length then
    some (s.take (n - 1) ++ 0 :: dst.drop ((s.take (n - 1)).length + 1))
  else none

def cString (bytes : List UInt8) : List UInt8 := bytes.takeWhile (· ≠ 0)

/-- `osal_posix_mq_t`. -/
structure PosixMq where
  id : Int
  msgSize : Nat
  name : List UInt8
  deriving DecidableEq, Repr

inductive KernelCall
  | mqOpen (name : List UInt8) (maxmsg msgsize : Int)
  | mqClose (id : Int)
  | mqUnlink (name : List UInt8)
  deriving DecidableEq, Repr

/-- The name member after the two `snprintf`; `osal_calloc` left it zero. -/
def storeName (name : List UInt8) : Option (List UInt8) :=
  let bytes := List.replicate (name.length + 1) 0
  if name.head? = some slash then snprintf bytes name.length name
  else snprintf bytes (name.length + 1) (slash :: name)

/-- `osal_posix_mq_create`. `ok` tells whether `osal_calloc` succeeds, `id` is what `mq_open` returns.
The calls made and the pointer returned. -/
def osalPosixMqCreate (name : Option (List UInt8)) (msgSize msgMax : Int) (ok : Bool) (id : Int) :
    Option (List KernelCall × Option PosixMq) :=
  match name with
  | none => some ([], none)
  | some name =>
    if ok = false then some ([], none) else do
    let bytes ← storeName name
    let call := .mqOpen (cString bytes) msgMax msgSize
    if id = -1 then some ([call], none)
    else some ([call], some ⟨id, (msgSize % 2 ^ 32).toNat, bytes⟩)

/-- `osal_posix_mq_destroy`, with the calls made; their failures are only printed. -/
def osalPosixMqDestroy (mq : Option PosixMq) : List KernelCall × Int :=
  match mq with
  | none => ([], OSAL_API_INVAL)
  | some q => ([.mqClose q.id, .mqUnlink (cString q.name)], OSAL_API_OK)

def fullName (name : List UInt8) : List UInt8 :=
  if name.head? = some slash then name else slash :: name

variable {name : List UInt8}

theorem fullName_ne_nil (hne : name ≠ []) : fullName name ≠ [] := by
  unfold fullName
  split_ifs
  · exact hne
  · exact List.cons_ne_nil _ _

theorem zero_notMem_fullName (hz : 0 ∉ name) : 0 ∉ fullName name := by
  unfold fullName
  split_ifs
  · exact hz
  · exact fun h => (List.mem_cons.1 h).elim (by decide) hz

/-- A string printed with its terminator is read back. -/
theorem cString_append {s : List UInt8} (hz : 0 ∉ s) (rest : List UInt8) :
    cString (s ++ 0 :: rest) = s := by
  have hall : ∀ c ∈ s, decide (c ≠ 0) = true := by
    intro c hc
    apply decide_eq_true
    rintro rfl
    exact hz hc
  unfold cString
  rw [List.takeWhile_append_of_pos hall]
  simp

/-- A size of just the string's length leaves no room for its last character. -/
theorem snprintf_length {dst str : List UInt8} (hne : str ≠ []) (hfit : str.length ≤ dst.length) :
    snprintf dst str.length str = some (str.dropLast ++ 0 :: dst.drop str.length) := by
  have hpos := List.length_pos_iff.2 hne
  have htake : (str.take (str.length - 1)).length + 1 = str.length := by
    rw [List.length_take]
    omega
  unfold snprintf
  rw [htake, if_neg (Nat.ne_of_gt hpos), if_pos hfit, List.dropLast_eq_take]

/-- Both branches print the full name into a block that has room for it, with a size that is one too
small. -/
theorem storeName_eq (hne : name ≠ []) :
    ∃ rest, storeName name = some ((fullName name).dropLast ++ 0 :: rest) := by
  have hfull : storeName name =
      snprintf (List.replicate (name.length + 1) 0) (fullName name).length (fullName name) := by
    unfold storeName fullName
    dsimp only
    split_ifs
    · rfl
    · rw [List.length_cons]
  have hfit : (fullName name).length ≤ (List.replicate (name.length + 1) (0 : UInt8)).length := by
    rw [List.length_replicate]
    unfold fullName
    split_ifs
    · exact Nat.le_succ _
    · rw [List.length_cons]
  rw [hfull, snprintf_length (fullName_ne_nil hne) hfit]
  exact ⟨_, rfl⟩

/-- **The kernel never sees the name asked for**: for every non-empty name, `mq_open` and `mq_unlink`
get it without its last character. -/
theorem osalPosixMqCreate_name (hne : name ≠ []) (hz : 0 ∉ name) (msgSize msgMax : Int) {id : Int}
    (hid : id ≠ -1) :
    ∃ mq, osalPosixMqCreate (some name) msgSize msgMax true id =
        some ([.mqOpen (fullName name).dropLast msgMax msgSize], some mq) ∧
      (osalPosixMqDestroy (some mq)).1 = [.mqClose id, .mqUnlink (fullName name).dropLast] ∧
      cString mq.name = (fullName name).dropLast ∧ cString mq.name ≠ fullName name := by
  obtain ⟨rest, hstore⟩ := storeName_eq hne
  have hz' : 0 ∉ (fullName name).dropLast :=
    fun h => zero_notMem_fullName hz (List.dropLast_subset _ h)
  have hstr : cString ((fullName name).dropLast ++ 0 :: rest) = (fullName name).dropLast :=
    cString_append hz' rest
  refine ⟨⟨id, (msgSize % 2 ^ 32).toNat, (fullName name).dropLast ++ 0 :: rest⟩, ?_, ?_, hstr, ?_⟩
  · unfold osalPosixMqCreate
    dsimp only
    rw [if_neg (by decide), hstore]
    simp only [Option.bind_eq_bind, Option.bind_some, hstr, if_neg hid]
  · unfold osalPosixMqDestroy
    dsimp only
    rw [hstr]
  · intro h
    have hlen := congrArg List.length (hstr.symm.trans h)
    have := List.length_pos_iff.2 (fullName_ne_nil hne)
    rw [List.length_dropLast] at hlen
    omega

/-- `"mq"` is kept as `"/m"`. -/
theorem osalPosixMqCreate_name_mq : ∃ mq,
    osalPosixMqCreate (some [109, 113]) 4 10 true 3 = some ([.mqOpen [47, 109] 10 4], some mq) ∧
    cString mq.name = [47, 109] := by
  obtain ⟨mq, hc, -, hname, -⟩ := @osalPosixMqCreate_name [109, 113] (by decide) (by decide) 4 10 3
    (by decide)
  exact ⟨mq, hc, hname⟩

/-- With the names `"/a"` and `"/b"` both calls hand `mq_open` the same name. -/
theorem osalPosixMqCreate_shared : fullName [47, 97] ≠ fullName [47, 98] ∧
    (osalPosixMqCreate (some [47, 97]) 4 10 true 3).map Prod.fst = some [.mqOpen [47] 10 4] ∧
    (osalPosixMqCreate (some [47, 98]) 4 10 true 3).map Prod.fst = some [.mqOpen [47] 10 4] := by
  decide

end FwkMlib.Osal.Mqueue
