import FwkMlib.Lib.Guarded
import FwkMlib.Mmem.Run

/-!
# The operations under the lock

The operations of `mmem_debug.c` once more, action by action: each read and write of the table, of a
header or of a guard, each call of the underlying allocator, and the lock. `_mmem_lock` and
`_mmem_unlock` crash where the hook fails, so what comes behind them has the lock or has given it back.

* `code` : the program of a call;
* `code_cases` : which of them run in one critical section; `code_disciplined` : each is disciplined.
-/

namespace FwkMlib.Mmem.Locked
open FwkMlib.Lib FwkMlib.Mlist

/-- `_mmem_check_block_magic_active`, and the message about a block that fails it. -/
def checkBlock (block : Nat) : Prog State Int := do
  let check ← Prog.reads fun s => checkBlockMagicActive s.mem block
  if check ≠ 0 then do
    let _ ← Prog.reads fun s => (blockFile s.mem block, blockLine s.mem block, blockSize s.mem block)
    return check
  else return check

/-- The end of `mmem_calloc` and of `mmem_alloc`, with the block that was granted. -/
def finish (block size total file : Nat) (line : Int) : Prog State Nat := do
  Prog.writes fun s => { s with mem := blockUpdate s.mem block size total file line }
  Prog.writes fun s => { s with mem := setBlockMagicActive s.mem block }
  Prog.writes blockTableGet
  Prog.writes fun s => { s with mem := mlistInit s.mem (blockNode block) }
  Prog.writes fun s => blockAdd s block
  Prog.unlock
  return blockData block

def mmemCalloc (counts itemSize file : Nat) (line : Int) (ans : Answer) : Prog State Nat := do
  Prog.lock
  if counts = 0 ∨ itemSize = 0 then do
    Prog.unlock
    return NULL
  else do
    let size := counts * itemSize % 2 ^ 64
    let total := totalSize size
    Prog.calls fun s => some (realAlloc s (.calloc 1 total) total ans)
    match ans.addr with
    | none => do
      Prog.unlock
      return NULL
    | some block => finish block size total file line

def mmemAlloc (size file : Nat) (line : Int) (ans : Answer) : Prog State Nat := do
  Prog.lock
  if size = 0 then do
    Prog.unlock
    return NULL
  else do
    let total := totalSize size
    Prog.calls fun s => some (realAlloc s (.malloc total) total ans)
    match ans.addr with
    | none => do
      Prog.unlock
      return NULL
    | some block => finish block size total file line

def takeOut (block : Nat) : Prog State Unit := do
  Prog.writes fun s => { s with mem := setBlockMagicFree s.mem block }
  Prog.writes blockTableGet
  Prog.writes fun s => blockDel s block

def mmemFree (addr : Nat) (f : Mem → Mem) : Prog State Unit := do
  Prog.lock
  if addr = NULL then Prog.unlock
  else do
    let block := getBlock addr
    let check ← checkBlock block
    if check ≠ 0 then Prog.unlock
    else do
      takeOut block
      Prog.calls fun s => realFree s block f
      Prog.unlock

/-- `mmem_realloc`. The lock is given back before `mmem_alloc` and `mmem_free` are called. -/
def mmemRealloc (addr size file : Nat) (line : Int) (ans : Answer) : Prog State Nat := do
  Prog.lock
  if addr = NULL then do
    Prog.unlock
    mmemAlloc size file line ans
  else if size = 0 then do
    Prog.unlock
    mmemFree addr ans.mem
    return NULL
  else do
    let block := getBlock addr
    let check ← checkBlock block
    if check ≠ 0 then do
      Prog.unlock
      return NULL
    else do
      takeOut block
      let total := totalSize size
      Prog.calls fun s => realRealloc s block total ans
      match ans.addr with
      | none => do
        Prog.writes fun s => { s with mem := setBlockMagicActive s.mem block }
        Prog.writes fun s => { s with mem := mlistInit s.mem (blockNode block) }
        Prog.writes fun s => blockAdd s block
        Prog.unlock
        return NULL
      | some block => do
        Prog.writes fun s => { s with mem := blockUpdate s.mem block size total file line }
        Prog.writes fun s => { s with mem := setBlockMagicActive s.mem block }
        Prog.writes fun s => { s with mem := mlistInit s.mem (blockNode block) }
        Prog.writes fun s => blockAdd s block
        Prog.unlock
        return blockData block

def freeAllLoop (list : Nat) (ans : Nat → Mem → Mem) : Nat → Nat → Nat → Prog State Unit
  | 0, _, _ => .stuck
  | fuel + 1, pos, n =>
    if pos = list then return ()
    else do
      let block := nodeBlock pos
      let _ ← checkBlock block
      Prog.writes fun s => { s with mem := setBlockMagicFree s.mem block }
      Prog.writes fun s => blockDel s block
      Prog.calls fun s => realFree s block (ans block)
      let n' ← Prog.reads fun s => next s.mem n
      freeAllLoop list ans fuel n n'

/-- `mmem_free_all`; the loop takes at most `fuel` rounds. -/
def mmemFreeAll (fuel : Nat) (ans : Nat → Mem → Mem) : Prog State Unit := do
  Prog.lock
  Prog.writes blockTableGet
  let list ← Prog.reads State.list
  let pos ← Prog.reads fun s => next s.mem list
  let n ← Prog.reads fun s => next s.mem pos
  freeAllLoop list ans fuel pos n
  Prog.unlock

def dumpCmdCounts (buf bufSize : Nat) : Prog State Int :=
  if buf = NULL then return MMEM_DUMP_RET_EMPTY_BUF
  else if bufSize < 8 then return MMEM_DUMP_RET_BUF_SIZE_TOO_SMALL
  else do
    Prog.writes fun s => { s with mem := write64 s.mem buf s.table.count }
    return MMEM_DUMP_RET_OK

def dumpCmdMmemInfo (buf bufSize : Nat) : Prog State Int :=
  if buf = NULL then return MMEM_DUMP_RET_EMPTY_BUF
  else if bufSize < 40 then return MMEM_DUMP_RET_BUF_SIZE_TOO_SMALL
  else do
    Prog.writes fun s => { s with mem := write64 s.mem buf s.table.count }
    Prog.writes fun s => { s with mem := write64 s.mem (buf + 8) s.table.totalSize }
    Prog.writes fun s => { s with mem := write64 s.mem (buf + 16) s.table.activeSize }
    Prog.writes fun s => { s with mem := write64 s.mem (buf + 24) s.table.maxTotalSize }
    Prog.writes fun s => { s with mem := write64 s.mem (buf + 32) s.table.maxActiveSize }
    return MMEM_DUMP_RET_OK

def dumpBlockLoop (list counts buf : Nat) : Nat → Nat → Nat → Nat → Prog State Int
  | 0, _, _, _ => .stuck
  | fuel + 1, pos, index, size =>
    if pos = list then return (index : Int)
    else do
      Prog.writes fun s =>
        { s with mem := writeBlockInfo s.mem (buf + 32 * index) (nodeBlock pos) }
      if index + 1 ≥ counts then return ((index + 1 : Nat) : Int)
      else if sub64 size 32 < 32 then return ((index + 1 : Nat) : Int)
      else do
        let pos' ← Prog.reads fun s => next s.mem pos
        dumpBlockLoop list counts buf fuel pos' (index + 1) (sub64 size 32)

def dumpCmdMmemBlockInfo (fuel list counts buf bufSize : Nat) : Prog State Int :=
  if buf = NULL then return MMEM_DUMP_RET_EMPTY_BUF
  else if bufSize < 32 then return MMEM_DUMP_RET_BUF_SIZE_TOO_SMALL
  else if counts = 0 then return 0
  else do
    let pos ← Prog.reads fun s => next s.mem list
    dumpBlockLoop list counts buf fuel pos 0 bufSize

def dumpCmd (fuel list cmd counts buf bufSize : Nat) : Prog State Int :=
  if cmd = MMEM_DUMP_CMD_COUNTS then dumpCmdCounts buf bufSize
  else if cmd = MMEM_DUMP_CMD_MMEM_INFO then dumpCmdMmemInfo buf bufSize
  else if cmd = MMEM_DUMP_CMD_MMEM_BLOCK_INFO then
    dumpCmdMmemBlockInfo fuel list counts buf bufSize
  else return MMEM_DUMP_RET_INVALID_CMD

def mmemDump (fuel cmd counts buf bufSize : Nat) : Prog State Int := do
  Prog.lock
  Prog.writes blockTableGet
  let list ← Prog.reads State.list
  let ret ← dumpCmd fuel list cmd counts buf bufSize
  Prog.unlock
  return ret

/-- The program of a call; a client's store is none of the module's. -/
def code (fuel : Nat) : Call → Prog State Unit
  | .alloc size file line ans => do let _ ← mmemAlloc size file line ans
  | .calloc counts itemSize file line ans => do let _ ← mmemCalloc counts itemSize file line ans
  | .realloc addr size file line ans => do let _ ← mmemRealloc addr size file line ans
  | .free addr f => mmemFree addr f
  | .freeAll f => mmemFreeAll fuel f
  | .dump cmd counts buf bufSize => do let _ ← mmemDump fuel cmd counts buf bufSize
  | .write _ _ => return ()

/-! ## The discipline -/

variable {addr block size total file list fuel : Nat} {line : Int} {ans : Answer} {f : Mem → Mem}

theorem inside_checkBlock (block : Nat) : (checkBlock block).Inside := by
  simp [checkBlock]

theorem inside_takeOut (block : Nat) : (takeOut block).Inside := by
  simp [takeOut]

theorem section_finish : (finish block size total file line).Section := by
  simp [finish]

theorem inside_freeAllLoop (list : Nat) (ans : Nat → Mem → Mem) : ∀ fuel pos n,
    (freeAllLoop list ans fuel pos n).Inside := by
  intro fuel
  induction fuel with
  | zero => exact fun pos n => Prog.inside_stuck
  | succ fuel ih =>
    intro pos n
    unfold freeAllLoop
    simp only [Prog.inside_ite, Prog.bind_eq, Prog.pure_eq, Prog.inside_ret, implies_true, true_and]
    intro _
    refine Prog.Inside.bind (inside_checkBlock (nodeBlock pos)) ?_
    simp [ih]

theorem inside_dumpBlockLoop (list counts buf : Nat) : ∀ fuel pos index size,
    (dumpBlockLoop list counts buf fuel pos index size).Inside := by
  intro fuel
  induction fuel with
  | zero => exact fun pos index size => Prog.inside_stuck
  | succ fuel ih =>
    intro pos index size
    unfold dumpBlockLoop
    simp [ih]

theorem inside_dumpCmd (fuel list cmd counts buf bufSize : Nat) :
    (dumpCmd fuel list cmd counts buf bufSize).Inside := by
  simp [dumpCmd, dumpCmdCounts, dumpCmdMmemInfo, dumpCmdMmemBlockInfo, inside_dumpBlockLoop]

/-- The end of an allocation, whatever the underlying allocator answers. -/
theorem section_grant : Prog.Section (match ans.addr with
    | none => Prog.unlock >>= fun _ => return NULL
    | some block => finish block size total file line) := by
  cases ans.addr with
  | none => simp
  | some a => exact section_finish

theorem atomic_mmemAlloc : (mmemAlloc size file line ans).Atomic := by
  refine ⟨_, Prog.lock_bind _, ?_⟩
  rw [Prog.section_ite]
  constructor
  · simp
  · intro _
    exact Prog.section_call.2 section_grant

theorem atomic_mmemCalloc {counts itemSize : Nat} :
    (mmemCalloc counts itemSize file line ans).Atomic := by
  refine ⟨_, Prog.lock_bind _, ?_⟩
  rw [Prog.section_ite]
  constructor
  · simp
  · intro _
    exact Prog.section_call.2 section_grant

theorem atomic_mmemFree : (mmemFree addr f).Atomic := by
  refine ⟨_, Prog.lock_bind _, ?_⟩
  rw [Prog.section_ite]
  refine ⟨fun _ => Prog.section_unlock, fun _ => ?_⟩
  refine (inside_checkBlock (getBlock addr)).bind_section fun check => ?_
  rw [Prog.section_ite]
  refine ⟨fun _ => Prog.section_unlock, fun _ => ?_⟩
  refine (inside_takeOut (getBlock addr)).bind_section ?_
  simp

theorem atomic_mmemFreeAll (fuel : Nat) (ans : Nat → Mem → Mem) : (mmemFreeAll fuel ans).Atomic := by
  refine ⟨_, Prog.lock_bind _, ?_⟩
  simp only [Prog.bind_eq, Prog.writes_bind, Prog.reads_bind, Prog.section_access]
  intro _ s t u
  exact (inside_freeAllLoop _ _ _ _ _).bind_section fun _ => Prog.section_unlock

theorem atomic_mmemDump (fuel cmd counts buf bufSize : Nat) :
    (mmemDump fuel cmd counts buf bufSize).Atomic := by
  refine ⟨_, Prog.lock_bind _, ?_⟩
  simp only [Prog.bind_eq, Prog.writes_bind, Prog.reads_bind, Prog.section_access]
  intro _ s
  refine (inside_dumpCmd _ _ _ _ _ _).bind_section fun ret => ?_
  simp

/-- A resize that is none: the lock is given back on the state it was taken on. -/
theorem mmemRealloc_null : mmemRealloc NULL size file line ans =
    .acquire (.release (mmemAlloc size file line ans)) := rfl

theorem mmemRealloc_zero (hn : addr ≠ NULL) : mmemRealloc addr 0 file line ans =
    .acquire (.release ((mmemFree addr ans.mem).bind fun _ => .ret NULL)) := by
  unfold mmemRealloc
  rw [if_neg hn, if_pos rfl]
  rfl

theorem atomic_mmemRealloc (hn : addr ≠ NULL) (hs : size ≠ 0) :
    (mmemRealloc addr size file line ans).Atomic := by
  refine ⟨_, Prog.lock_bind _, ?_⟩
  rw [if_neg hn, if_neg hs]
  refine (inside_checkBlock (getBlock addr)).bind_section fun check => ?_
  rw [Prog.section_ite]
  constructor
  · simp
  · intro _
    refine (inside_takeOut (getBlock addr)).bind_section fun _ => ?_
    cases ans.addr with
    | none => simp
    | some a => simp

theorem code_realloc_null (fuel : Nat) : code fuel (.realloc NULL size file line ans) =
    .acquire (.release (code fuel (.alloc size file line ans))) := rfl

theorem code_realloc_zero (fuel : Nat) (hn : addr ≠ NULL) :
    code fuel (.realloc addr 0 file line ans) = .acquire (.release
      (((mmemFree addr ans.mem).bind fun _ => .ret NULL).bind fun _ => .ret ())) := by
  show (mmemRealloc addr 0 file line ans).bind _ = _
  rw [mmemRealloc_zero hn]
  rfl

/-- A client's store, a resize that is an allocation or a release, or one critical section. -/
theorem code_cases (fuel : Nat) (c : Call) : (∃ x v, c = .write x v) ∨
    (∃ size file line ans, c = .realloc NULL size file line ans) ∨
    (∃ addr file line ans, c = .realloc addr 0 file line ans ∧ addr ≠ NULL) ∨
    (∀ x v, c ≠ .write x v) ∧ (code fuel c).Atomic := by
  cases c with
  | realloc addr size file line ans =>
    by_cases hn : addr = NULL
    · exact .inr (.inl ⟨size, file, line, ans, by rw [hn]⟩)
    by_cases hs : size = 0
    · exact .inr (.inr (.inl ⟨addr, file, line, ans, by rw [hs], hn⟩))
    · exact .inr (.inr (.inr ⟨nofun, (atomic_mmemRealloc hn hs).map _⟩))
  | write x v => exact .inl ⟨x, v, rfl⟩
  | alloc size file line ans => exact .inr (.inr (.inr ⟨nofun, atomic_mmemAlloc.map _⟩))
  | calloc counts itemSize file line ans => exact .inr (.inr (.inr ⟨nofun, atomic_mmemCalloc.map _⟩))
  | free addr f => exact .inr (.inr (.inr ⟨nofun, atomic_mmemFree⟩))
  | freeAll f => exact .inr (.inr (.inr ⟨nofun, atomic_mmemFreeAll fuel f⟩))
  | dump cmd counts buf bufSize =>
    exact .inr (.inr (.inr ⟨nofun, (atomic_mmemDump fuel cmd counts buf bufSize).map _⟩))

/-- **Every operation is disciplined** : the lock is taken when the caller does not hold it, held at
each access and each call of the underlying allocator, and given back at the end. -/
theorem code_disciplined (fuel : Nat) (c : Call) : (code fuel c).Disciplined false := by
  rcases code_cases fuel c with ⟨x, v, rfl⟩ | ⟨size, file, line, ans, rfl⟩ |
    ⟨addr, file, line, ans, rfl, hn⟩ | ⟨-, ha⟩
  · exact Prog.disciplined_ret.2 rfl
  · rw [code_realloc_null, Prog.disciplined_acquire, Prog.disciplined_release]
    exact ⟨rfl, rfl, (atomic_mmemAlloc.map _).disciplined⟩
  · rw [code_realloc_zero fuel hn, Prog.disciplined_acquire, Prog.disciplined_release]
    exact ⟨rfl, rfl, ((atomic_mmemFree.map _).map _).disciplined⟩
  · exact ha.disciplined

end FwkMlib.Mmem.Locked
