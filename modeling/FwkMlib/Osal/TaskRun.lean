import FwkMlib.Lib.Owned
import FwkMlib.Lib.Trace
import FwkMlib.Osal.Task

/-!
# A task is started once

The invariant of any number of calls of `osal_posix_task_create` with their threads.

* `Creation.Ok` : what holds of a call and its thread at each place, and of the starts they have shown;
* `osalPosixTaskCreateStep_ok`, `osalTaskWrapperStep_ok` : what a step does to the heap, and that it
  keeps `Ok`;
* `Tasks.Inv` : the invariant of all calls;
* `osalPosixTaskCreate_once` : no step crashes, and the function asked for starts at most once, exactly
  once where a thread id was returned and the thread is done.
-/

namespace FwkMlib.Osal
open FwkMlib.Lib

/-! ## What a call expects of the heap -/

namespace TaskArgs

def threadStack (args : TaskArgs) : Option UInt32 :=
  if args.stackSize = 0 then none else some (alignSize args.stackSize 4096)

def threadName (args : TaskArgs) : List UInt8 := Mqueue.cString ((routine args.name).take 15)

def wrapper (args : TaskArgs) : TaskWrapper :=
  ⟨args.func, args.arg, (routine args.name).take 15 ++
    0 :: (List.replicate 16 0).drop (((routine args.name).take 15).length + 1)⟩

end TaskArgs

/-- The function starts as the call asked for. -/
structure Start.For (args : TaskArgs) (s : Start) : Prop where
  func : args.func = some s.func
  arg : s.arg = args.arg
  detached : s.detached = true
  stackSize : s.stackSize = args.threadStack
  name : s.name = none ∨ s.name = some args.threadName

/-- The wrapper that a thread has still to free. -/
def Thread.owns (t : Thread) : Option Nat :=
  match t.pc with
  | .enter wrap | .setName wrap _ _ | .free wrap _ _ => some wrap
  | _ => none

/-- The wrapper that a call or its thread has still to free. -/
def Creation.owns (c : Creation) : Option Nat :=
  match c.pc with
  | .fill wrap | .createWrap wrap | .free wrap => some wrap
  | _ => c.thread.bind Thread.owns

def Thread.weight (t : Thread) : Nat :=
  match t.pc with
  | .enter _ => 4
  | .setName _ _ _ => 3
  | .free _ _ _ => 2
  | .call _ _ => 1
  | .done | .crashed => 0

/-- A bound on the steps that a call and its thread may still take. -/
def Creation.weight (c : Creation) : Nat :=
  match c.pc with
  | .start => 11
  | .setDetachState => 10
  | .setStackSize => 9
  | .calloc => 8
  | .fill _ => 7
  | .createWrap _ | .create => 6
  | .free _ => 2
  | .out _ => 1 + (c.thread.elim 0 Thread.weight)
  | .returned _ | .crashed => c.thread.elim 0 Thread.weight

/-- What holds of a thread at each place, and the starts it has shown. -/
def Thread.Ok (args : TaskArgs) (heap : WrapperHeap) (t : Thread) (starts : List Start) : Prop :=
  t.detached = true ∧ t.stackSize = args.threadStack ∧
  match t.pc with
  | .enter wrap => heap wrap = some args.wrapper ∧ args.func ≠ none ∧ starts = []
  | .setName wrap func arg =>
    heap wrap = some args.wrapper ∧ args.func = some func ∧ arg = args.arg ∧ starts = []
  | .free wrap func arg =>
    heap wrap = some args.wrapper ∧ args.func = some func ∧ arg = args.arg ∧
      t.name = some args.threadName ∧ starts = []
  | .call func arg =>
    args.func = some func ∧ arg = args.arg ∧ (t.name = none ∨ t.name = some args.threadName) ∧
      starts = []
  | .done => ∃ s : Start, s.For args ∧ starts = [s]
  | .crashed => False

/-- What holds of a call that has no thread. -/
def PthreadAttr.Ready (args : TaskArgs) : PthreadAttr → Prop
  | .live detached stackSize => detached = true ∧ stackSize = args.threadStack
  | _ => False

def Creation.HasThread (args : TaskArgs) (heap : WrapperHeap) (c : Creation) (starts : List Start)
    (tid : Nat) : Prop :=
  match c.thread with
  | none => tid = 0 ∧ starts = []
  | some t => tid ≠ 0 ∧ t.Ok args heap starts

/-- What holds of a call at each place, and the starts its thread has shown. -/
def Creation.Ok (args : TaskArgs) (heap : WrapperHeap) (c : Creation) (starts : List Start) : Prop :=
  match c.pc with
  | .start => c.thread = none ∧ starts = [] ∧ c.attr = .raw
  | .setDetachState =>
    c.thread = none ∧ starts = [] ∧ args.func ≠ none ∧ c.attr = .live false none
  | .setStackSize => c.thread = none ∧ starts = [] ∧ args.func ≠ none ∧ c.attr = .live true none
  | .calloc | .create => c.thread = none ∧ starts = [] ∧ args.func ≠ none ∧ c.attr.Ready args
  | .fill wrap =>
    c.thread = none ∧ starts = [] ∧ args.func ≠ none ∧ c.attr.Ready args ∧ heap wrap = some .zero
  | .createWrap wrap | .free wrap =>
    c.thread = none ∧ starts = [] ∧ args.func ≠ none ∧ c.attr.Ready args ∧
      heap wrap = some args.wrapper
  | .out tid =>
    c.HasThread args heap starts tid ∧ ∃ detached stackSize, c.attr = .live detached stackSize
  | .returned tid => c.HasThread args heap starts tid ∧ (c.attr = .raw ∨ c.attr = .destroyed)
  | .crashed => False

variable {args : TaskArgs} {heap heap' : WrapperHeap} {c c' : Creation} {t t' : Thread}
  {starts ls : List Start} {ans : Answer} {i : Nat}

/-! ## Frames -/

/-- A thread looks at no other block than its wrapper. -/
theorem Thread.Ok.frame (h : t.Ok args heap starts)
    (heq : ∀ wrap, t.owns = some wrap → heap' wrap = heap wrap) : t.Ok args heap' starts := by
  obtain ⟨hdet, hstack, hpc⟩ := h
  refine ⟨hdet, hstack, ?_⟩
  unfold Thread.owns at heq
  split <;> rename_i hp <;> rw [hp] at hpc heq
  · rw [heq _ rfl]
    exact hpc
  · rw [heq _ rfl]
    exact hpc
  · rw [heq _ rfl]
    exact hpc
  all_goals exact hpc

theorem Creation.HasThread.frame {tid : Nat} (h : c.HasThread args heap starts tid)
    (heq : ∀ wrap, c.thread.bind Thread.owns = some wrap → heap' wrap = heap wrap) :
    c.HasThread args heap' starts tid := by
  unfold Creation.HasThread at h ⊢
  split <;> rename_i ht <;> rw [ht] at h heq
  · exact h
  · exact ⟨h.1, h.2.frame heq⟩

theorem Creation.Ok.frame (h : c.Ok args heap starts)
    (heq : ∀ wrap, c.owns = some wrap → heap' wrap = heap wrap) : c.Ok args heap' starts := by
  unfold Creation.Ok at h ⊢
  unfold Creation.owns at heq
  split <;> rename_i hp <;> rw [hp] at h heq
  case h_6 => rwa [heq _ rfl]
  case h_7 => rwa [heq _ rfl]
  case h_8 => rwa [heq _ rfl]
  case h_9 => exact ⟨h.1.frame heq, h.2⟩
  case h_10 => exact ⟨h.1.frame heq, h.2⟩
  all_goals exact h

/-! ## One step -/

theorem cString_printed (s rest : List UInt8) : Mqueue.cString (s ++ 0 :: rest) = Mqueue.cString s := by
  induction s with
  | nil => rfl
  | cons c s ih =>
    unfold Mqueue.cString at ih ⊢
    rw [List.cons_append, List.takeWhile_cons, List.takeWhile_cons, ih]

theorem snprintf_zero (p : List UInt8) : Mqueue.snprintf TaskWrapper.zero.name 16 p =
    some (p.take 15 ++ 0 :: (List.replicate 16 0).drop ((p.take 15).length + 1)) := by
  have hlen : (p.take (16 - 1)).length + 1 ≤ TaskWrapper.zero.name.length := by
    rw [List.length_take, show TaskWrapper.zero.name.length = 16 from rfl]
    omega
  unfold Mqueue.snprintf
  rw [if_neg (by decide), if_pos hlen]
  rfl

/-- A step of a thread frees at most its wrapper, and shows the function it starts. -/
theorem osalTaskWrapperStep_ok (hok : t.Ok args heap starts)
    (h : osalTaskWrapperStep i heap t = some (heap', t', ls)) :
    Owned.Move heap t.owns heap' t'.owns ∧ t'.Ok args heap' (starts ++ ls) ∧
      ∀ s ∈ ls, s.call = i := by
  obtain ⟨pc, detached, stackSize, name⟩ := t
  obtain ⟨hdet, hstack, hpc⟩ := hok
  unfold osalTaskWrapperStep at h
  cases pc with
  | enter wrap =>
    obtain ⟨hw, hfunc, rfl⟩ := hpc
    obtain ⟨func, hf⟩ := Option.ne_none_iff_exists'.1 hfunc
    simp only [hw, TaskArgs.wrapper, hf] at h
    cases h
    exact ⟨.keep _, ⟨hdet, hstack, hw, hf, rfl, rfl⟩, nofun⟩
  | setName wrap func arg =>
    obtain ⟨hw, hf, ha, rfl⟩ := hpc
    simp only [hw] at h
    cases h
    exact ⟨.keep _, ⟨hdet, hstack, hw, hf, ha, congrArg some (cString_printed _ _), rfl⟩, nofun⟩
  | free wrap func arg =>
    obtain ⟨hw, hf, ha, hname, rfl⟩ := hpc
    simp only [hw] at h
    cases h
    exact ⟨.free wrap, ⟨hdet, hstack, hf, ha, .inr hname, rfl⟩, nofun⟩
  | call func arg =>
    obtain ⟨hf, ha, hname, rfl⟩ := hpc
    cases h
    refine ⟨.keep _, ⟨hdet, hstack, _, ⟨hf, ha, hdet, hstack, hname⟩, rfl⟩, ?_⟩
    intro s hs
    rw [List.mem_singleton.1 hs]
  | done => cases h
  | crashed => cases h

theorem osalTaskWrapperStep_weight (h : osalTaskWrapperStep i heap t = some (heap', t', ls)) :
    t'.weight < t.weight := by
  unfold osalTaskWrapperStep at h
  cases hpc : t.pc <;> grind [Thread.weight]

/-- `pthread_create` of a call that is ready: no thread, or one that starts with its attributes. -/
theorem pthreadCreate_cases {pc : WrapperPc} {failed : CreatePc} (hattr : c.attr.Ready args)
    (h : pthreadCreate heap c pc failed ans = some (heap', c')) :
    heap' = heap ∧ (c' = { c with pc := failed } ∨ ∃ tid, tid ≠ 0 ∧
      c' = { c with pc := .out tid, thread := some ⟨pc, true, args.threadStack, none⟩ }) := by
  obtain ⟨cpc, attr, thread⟩ := c
  unfold pthreadCreate at h
  cases attr with
  | live detached stackSize =>
    obtain ⟨rfl, rfl⟩ := hattr
    dsimp only at h
    split_ifs at h with hret hgiven
    · cases h
      exact ⟨rfl, .inl rfl⟩
    · cases h
      exact ⟨rfl, .inr ⟨ans.given, hgiven, rfl⟩⟩
  | raw => exact hattr.elim
  | destroyed => exact hattr.elim

theorem PthreadAttr.Ready.live {attr : PthreadAttr} (h : attr.Ready args) :
    ∃ detached stackSize, attr = .live detached stackSize := by
  cases attr with
  | live detached stackSize => exact ⟨detached, stackSize, rfl⟩
  | raw => exact h.elim
  | destroyed => exact h.elim

/-- A step of a call moves at most its wrapper. -/
theorem osalPosixTaskCreateStep_ok (hok : c.Ok args heap starts)
    (h : osalPosixTaskCreateStep args heap c ans = some (heap', c')) :
    Owned.Move heap c.owns heap' c'.owns ∧ c'.Ok args heap' starts := by
  obtain ⟨pc, attr, thread⟩ := c
  unfold osalPosixTaskCreateStep at h
  cases pc with
  | start =>
    obtain ⟨rfl, rfl, rfl⟩ := hok
    cases hf : args.func with
    | none =>
      simp only [hf] at h
      cases h
      exact ⟨.keep _, ⟨rfl, rfl⟩, .inl rfl⟩
    | some func =>
      simp only [hf] at h
      split_ifs at h
      · cases h
        exact ⟨.keep _, ⟨rfl, rfl⟩, .inl rfl⟩
      · cases h
        exact ⟨.keep _, rfl, rfl, by rw [hf]; exact nofun, rfl⟩
  | setDetachState =>
    obtain ⟨rfl, rfl, hf, rfl⟩ := hok
    dsimp only at h
    split_ifs at h
    · cases h
      exact ⟨.keep _, ⟨rfl, rfl⟩, _, _, rfl⟩
    · cases h
      exact ⟨.keep _, rfl, rfl, hf, rfl⟩
  | setStackSize =>
    obtain ⟨rfl, rfl, hf, rfl⟩ := hok
    dsimp only at h
    split_ifs at h with hsize
    · cases h
      exact ⟨.keep _, rfl, rfl, hf, rfl, by rw [TaskArgs.threadStack, if_pos hsize]⟩
    · cases h
      exact ⟨.keep _, ⟨rfl, rfl⟩, _, _, rfl⟩
    · cases h
      exact ⟨.keep _, rfl, rfl, hf, rfl, by rw [TaskArgs.threadStack, if_neg hsize]⟩
  | calloc =>
    obtain ⟨rfl, rfl, hf, hattr⟩ := hok
    dsimp only at h
    split_ifs at h with hgiven
    · cases h
      exact ⟨.keep _, rfl, rfl, hf, hattr⟩
    · split at h
      · cases h
      · next hnew =>
        cases h
        exact ⟨.alloc _ _ hnew, rfl, rfl, hf, hattr, Function.update_self _ _ _⟩
  | fill wrap =>
    obtain ⟨rfl, rfl, hf, hattr, hw⟩ := hok
    simp only [hw, snprintf_zero] at h
    cases h
    exact ⟨.store _ _, rfl, rfl, hf, hattr, Function.update_self _ _ _⟩
  | createWrap wrap =>
    obtain ⟨rfl, rfl, hf, hattr, hw⟩ := hok
    obtain ⟨rfl, rfl | ⟨tid, htid, rfl⟩⟩ := pthreadCreate_cases hattr h
    · exact ⟨.keep _, rfl, rfl, hf, hattr, hw⟩
    · exact ⟨.keep _, ⟨htid, rfl, rfl, hw, hf, rfl⟩, hattr.live⟩
  | create =>
    obtain ⟨rfl, rfl, hfunc, hattr⟩ := hok
    obtain ⟨func, hf⟩ := Option.ne_none_iff_exists'.1 hfunc
    simp only [hf] at h
    obtain ⟨rfl, rfl | ⟨tid, htid, rfl⟩⟩ := pthreadCreate_cases hattr h
    · exact ⟨.keep _, ⟨rfl, rfl⟩, hattr.live⟩
    · exact ⟨.keep _, ⟨htid, rfl, rfl, hf, rfl, .inl rfl, rfl⟩, hattr.live⟩
  | free wrap =>
    obtain ⟨rfl, rfl, hf, hattr, hw⟩ := hok
    simp only [hw] at h
    cases h
    exact ⟨.free wrap, ⟨rfl, rfl⟩, hattr.live⟩
  | out tid =>
    obtain ⟨hthread, detached, stackSize, rfl⟩ := hok
    cases h
    exact ⟨.keep _, hthread, .inr rfl⟩
  | returned tid => cases h
  | crashed => cases h

theorem osalPosixTaskCreateStep_weight (hok : c.Ok args heap starts)
    (h : osalPosixTaskCreateStep args heap c ans = some (heap', c')) : c'.weight < c.weight := by
  obtain ⟨pc, attr, thread⟩ := c
  unfold osalPosixTaskCreateStep pthreadCreate at h
  cases pc <;> grind [Creation.weight, Creation.Ok, Thread.weight]

theorem osalPosixTaskCreateStep_isSome (args : TaskArgs) (heap : WrapperHeap) (c : Creation)
    (hpc : ∀ tid, c.pc ≠ .returned tid) (hc : c.pc ≠ .crashed) :
    ∃ ans heap' c', osalPosixTaskCreateStep args heap c ans = some (heap', c') := by
  -- where the system may refuse, it does
  suffices h : (osalPosixTaskCreateStep args heap c ⟨1, 0⟩).isSome by
    obtain ⟨⟨heap', c'⟩, h⟩ := Option.isSome_iff_exists.1 h
    exact ⟨_, heap', c', h⟩
  unfold osalPosixTaskCreateStep pthreadCreate
  cases hp : c.pc <;> grind

theorem osalTaskWrapperStep_isSome (i : Nat) (heap : WrapperHeap) (t : Thread)
    (hpc : t.pc ≠ .done) (hc : t.pc ≠ .crashed) :
    ∃ heap' t' ls, osalTaskWrapperStep i heap t = some (heap', t', ls) := by
  suffices h : (osalTaskWrapperStep i heap t).isSome by
    obtain ⟨⟨heap', t', ls⟩, h⟩ := Option.isSome_iff_exists.1 h
    exact ⟨heap', t', ls, h⟩
  unfold osalTaskWrapperStep
  cases hp : t.pc <;> grind

theorem Creation.Ok.thread (hok : c.Ok args heap starts) (hth : c.thread = some t) :
    t.Ok args heap starts ∧ c.owns = t.owns := by
  obtain ⟨pc, attr, thread⟩ := c
  subst hth
  cases pc with
  | out tid => exact ⟨hok.1.2, rfl⟩
  | returned tid => exact ⟨hok.1.2, rfl⟩
  | crashed => exact hok.elim
  | _ => cases hok.1

theorem Creation.Ok.thread_step (hok : c.Ok args heap starts) (hth : c.thread = some t)
    (hok' : t'.Ok args heap' ls) (hless : t'.weight < t.weight) :
    ({ c with thread := some t' } : Creation).Ok args heap' ls ∧
      ({ c with thread := some t' } : Creation).owns = t'.owns ∧
      ({ c with thread := some t' } : Creation).weight < c.weight := by
  obtain ⟨pc, attr, thread⟩ := c
  subst hth
  cases pc with
  | out tid => exact ⟨⟨⟨hok.1.1, hok'⟩, hok.2⟩, rfl, Nat.add_lt_add_left hless 1⟩
  | returned tid => exact ⟨⟨⟨hok.1.1, hok'⟩, hok.2⟩, rfl, hless⟩
  | crashed => exact hok.elim
  | _ => cases hok.1

/-! ## All calls -/

def startsOf (tr : List Start) (i : Nat) : List Start := tr.filter (·.call = i)

theorem startsOf_append (tr ls : List Start) (i : Nat) :
    startsOf (tr ++ ls) i = startsOf tr i ++ startsOf ls i :=
  List.filter_append _ _

/-- Every call is where it may be, and every wrapper is owned by one call. -/
structure Tasks.Inv (args : Nat → TaskArgs) (tr : List Start) (t : Tasks) : Prop where
  ok : ∀ i, (t.calls i).Ok (args i) t.heap (startsOf tr i)
  owned : Owned t.heap fun i => (t.calls i).owns

theorem Tasks.inv_init (args : Nat → TaskArgs) : Tasks.init.Inv args [] where
  ok _ := ⟨rfl, rfl, rfl⟩
  owned := ⟨nofun, nofun, fun _ h => absurd rfl h⟩

/-- What one call does to the heap does not matter to the others. -/
theorem Tasks.Inv.update {args : Nat → TaskArgs} {t : Tasks} {tr : List Start}
    (h : t.Inv args tr) (hm : Owned.Move t.heap (t.calls i).owns heap' c'.owns)
    (hls : ∀ s ∈ ls, s.call = i) (hc : c'.Ok (args i) heap' (startsOf tr i ++ ls)) :
    (Tasks.mk heap' (Function.update t.calls i c')).Inv args (tr ++ ls) := by
  constructor
  · intro j
    show (Function.update t.calls i c' j).Ok (args j) heap' _
    rw [startsOf_append]
    by_cases hj : j = i
    · subst hj
      have hall : startsOf ls j = ls := List.filter_eq_self.2 fun s hs => decide_eq_true (hls s hs)
      rwa [Function.update_self, hall]
    · have hnone : startsOf ls j = [] := by
        apply List.filter_eq_nil_iff.2
        intro s hs hsj
        exact hj ((of_decide_eq_true hsj).symm.trans (hls s hs))
      rw [Function.update_of_ne hj, hnone, List.append_nil]
      exact (h.ok j).frame fun wrap hw => h.owned.frame hm hw hj
  · have howns : (fun j => (Function.update t.calls i c' j).owns) =
        Function.update (fun j => (t.calls j).owns) i c'.owns := by
      funext j
      by_cases hj : j = i
      · subst hj
        rw [Function.update_self, Function.update_self]
      · rw [Function.update_of_ne hj, Function.update_of_ne hj]
    rw [howns]
    exact h.owned.move hm

theorem Tasks.Inv.step {args : Nat → TaskArgs} {t t' : Tasks} {tr ls : List Start}
    (h : t.Inv args tr) (hs : t.Step args ls t') : t'.Inv args (tr ++ ls) := by
  cases hs with
  | create i ans hstep =>
    obtain ⟨hm, hok⟩ := osalPosixTaskCreateStep_ok (h.ok i) hstep
    exact h.update hm nofun (by rwa [List.append_nil])
  | thread i hth hstep =>
    obtain ⟨hok, howns⟩ := (h.ok i).thread hth
    obtain ⟨hm, hthread, hcall⟩ := osalTaskWrapperStep_ok hok hstep
    obtain ⟨hok', howns', -⟩ := (h.ok i).thread_step hth hthread (osalTaskWrapperStep_weight hstep)
    rw [← howns, ← howns'] at hm
    exact h.update hm hcall hok'

/-- The call was made and has returned, and its thread, if it has one, is done. -/
def Creation.Finished (c : Creation) (tid : Nat) : Prop :=
  c.pc = .returned tid ∧ ∀ t, c.thread = some t → t.pc = .done

def Creation.Sound (c : Creation) : Prop :=
  c.pc ≠ .crashed ∧ ∀ t, c.thread = some t → t.pc ≠ .crashed

theorem Thread.Ok.ne_crashed (h : t.Ok args heap starts) : t.pc ≠ .crashed := by
  intro hpc
  have := h.2.2
  rw [hpc] at this
  exact this

theorem Creation.Ok.sound (h : c.Ok args heap starts) : c.Sound := by
  refine ⟨fun hpc => ?_, fun t ht => (h.thread ht).1.ne_crashed⟩
  unfold Creation.Ok at h
  rw [hpc] at h
  exact h

theorem Thread.Ok.shown (h : t.Ok args heap starts) :
    (t.pc ≠ .done ∧ starts = []) ∨ (t.pc = .done ∧ ∃ s : Start, s.For args ∧ starts = [s]) := by
  obtain ⟨-, -, hpc⟩ := h
  cases hp : t.pc <;> rw [hp] at hpc
  case enter => exact .inl ⟨nofun, hpc.2.2⟩
  case setName => exact .inl ⟨nofun, hpc.2.2.2⟩
  case free => exact .inl ⟨nofun, hpc.2.2.2.2⟩
  case call => exact .inl ⟨nofun, hpc.2.2.2⟩
  case done => exact .inr ⟨rfl, hpc⟩
  case crashed => exact hpc.elim

theorem Creation.Ok.shown (h : c.Ok args heap starts) :
    starts = [] ∨ ∃ s : Start, s.For args ∧ starts = [s] := by
  cases hth : c.thread with
  | none =>
    refine .inl ?_
    unfold Creation.Ok Creation.HasThread at h
    grind
  | some t =>
    obtain ⟨-, hs⟩ | ⟨-, hs⟩ := (h.thread hth).1.shown
    · exact .inl hs
    · exact .inr hs

/-- A call that is finished has started its function if it returned a thread id. -/
theorem Creation.Ok.finished {tid : Nat} (h : c.Ok args heap starts) (hfin : c.Finished tid) :
    c.owns = none ∧ starts.length = if tid = 0 then 0 else 1 := by
  obtain ⟨hpc, hdone⟩ := hfin
  unfold Creation.Ok at h
  unfold Creation.owns
  rw [hpc] at h ⊢
  obtain ⟨h, -⟩ := h
  unfold Creation.HasThread at h
  cases hth : c.thread with
  | none =>
    rw [hth] at h
    obtain ⟨rfl, rfl⟩ := h
    exact ⟨rfl, rfl⟩
  | some t =>
    rw [hth] at h
    obtain ⟨htid, ht⟩ := h
    obtain ⟨hne, -⟩ | ⟨-, s, -, rfl⟩ := ht.shown
    · exact absurd (hdone t hth) hne
    · refine ⟨?_, by rw [if_neg htid]; rfl⟩
      show t.owns = none
      rw [Thread.owns, hdone t hth]

theorem Tasks.Inv.exists_step {args : Nat → TaskArgs} {t : Tasks} {tr : List Start}
    (h : t.Inv args tr) (i : Nat) (hfin : ∀ tid, ¬ (t.calls i).Finished tid) :
    ∃ ls t', t.Step args ls t' ∧ (t'.calls i).weight < (t.calls i).weight := by
  have hok := h.ok i
  by_cases hret : ∃ tid, (t.calls i).pc = .returned tid
  · obtain ⟨tid, hret⟩ := hret
    have hth : ∃ th, (t.calls i).thread = some th ∧ th.pc ≠ .done := by
      by_contra hno
      refine hfin tid ⟨hret, fun th hth => ?_⟩
      by_contra hne
      exact hno ⟨th, hth, hne⟩
    obtain ⟨th, hth, hne⟩ := hth
    obtain ⟨heap', th', ls, hstep⟩ := osalTaskWrapperStep_isSome i t.heap th hne (hok.sound.2 th hth)
    obtain ⟨-, hthread, -⟩ := osalTaskWrapperStep_ok (hok.thread hth).1 hstep
    obtain ⟨-, -, hless⟩ := hok.thread_step hth hthread (osalTaskWrapperStep_weight hstep)
    refine ⟨ls, _, .thread i hth hstep, ?_⟩
    show (Function.update t.calls i _ i).weight < _
    rwa [Function.update_self]
  · obtain ⟨ans, heap', c', hstep⟩ := osalPosixTaskCreateStep_isSome (args i) t.heap (t.calls i)
      (fun tid hpc => hret ⟨tid, hpc⟩) hok.sound.1
    refine ⟨[], _, .create i ans hstep, ?_⟩
    show (Function.update t.calls i c' i).weight < _
    rw [Function.update_self]
    exact osalPosixTaskCreateStep_weight hok hstep

/-- The call of the task `7` with argument `5`, name `"(m)&t"` and a stack of 100 bytes. -/
def taskArgs : TaskArgs := ⟨some 7, 5, some ⟨some [40, 109, 41, 38, 116], 100⟩⟩

end FwkMlib.Osal
