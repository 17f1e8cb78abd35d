import FwkMlib.Osal.QueueInv

/-!
# Sequences of pushes and pops

* `QueueLog.run_fifo` : what is popped is a prefix of what was accepted, a pop is refused exactly when
  nothing is left, a refused call changes nothing;
* `QueueLog.push_agrees_iff` : of the `msg_max` slots one always stays empty, so a push is answered as
  a queue of `msg_max` messages would answer it exactly when `msg_max - 1` is not the number of
  messages in the queue.
-/

namespace FwkMlib.Osal
open FwkMlib.Lib

inductive QueueCall where
  | push (msg : List UInt8)
  | pop (msg : List UInt8)
  deriving DecidableEq, Repr

def QueueCall.bufferLength : QueueCall → Nat
  | .push msg | .pop msg => msg.length

/-- A queue with the messages accepted and the messages delivered so far. -/
structure QueueLog where
  queue : LockFreeQueue
  accepted : List (List UInt8)
  popped : List (List UInt8)

namespace QueueLog

/-- One call: its return value, and the logs extended when it succeeds. -/
def call (l : QueueLog) : QueueCall → Option (Int × QueueLog)
  | .push msg => do
    let (ret, queue) ← osalLockFreeQueuePush l.queue (some msg)
    some (ret, ⟨queue,
      if ret = 0 then l.accepted ++ [msg.take l.queue.msgSize] else l.accepted, l.popped⟩)
  | .pop msg => do
    let (ret, out, queue) ← osalLockFreeQueuePop l.queue (some msg) msg.length
    some (ret, ⟨queue, l.accepted,
      if ret = 0 then l.popped ++ [(out.getD []).take l.queue.msgSize] else l.popped⟩)

def run : List QueueCall → QueueLog → Option QueueLog
  | [], l => some l
  | c :: cs, l => do
    let (_, l) ← l.call c
    run cs l

def pending (l : QueueLog) : Nat := l.accepted.length - l.popped.length

/-- The queue holds exactly the accepted messages not yet delivered. -/
def Inv (n : Nat) (l : QueueLog) : Prop :=
  ∃ r xs, l.queue.Holds n r xs ∧ l.accepted = l.popped ++ xs

variable {n : Nat} {l : QueueLog}

theorem pending_eq {xs : List (List UInt8)} (h : l.accepted = l.popped ++ xs) :
    l.pending = xs.length := by
  rw [pending, h, List.length_append, Nat.add_sub_cancel_left]

theorem call_push (h : l.Inv n) {msg : List UInt8} (hmsg : l.queue.msgSize ≤ msg.length) :
    ∃ ret l', l.call (.push msg) = some (ret, l') ∧ l'.Inv n ∧ l'.queue.msgSize = l.queue.msgSize ∧
      (ret = 0 ∧ l.pending + 1 < n ∨ ret = -1 ∧ l.pending + 1 = n ∧ l' = l) := by
  obtain ⟨r, xs, hq, hlog⟩ := h
  have hx : (msg.take l.queue.msgSize).length = l.queue.msgSize := by
    rw [List.length_take]
    omega
  rw [pending_eq hlog]
  by_cases hfull : xs.length + 1 = n
  · refine ⟨-1, l, ?_, ⟨r, xs, hq, hlog⟩, rfl, .inr ⟨rfl, hfull, rfl⟩⟩
    unfold call osalLockFreeQueuePush
    simp [LockFreeQueue.isFull_eq hq, hfull]
  · have hlen : xs.length + 1 < n := by have := hq.ring.length_lt; omega
    have hstore := hq.store hx
    have hcommit := hstore.commit hlen
    rw [LockFreeQueue.writeSlot_store hx] at hcommit
    refine ⟨0, ⟨_, l.accepted ++ [msg.take l.queue.msgSize], l.popped⟩, ?_,
      ⟨r, _, hcommit, ?_⟩, rfl, .inl ⟨rfl, hlen⟩⟩
    · unfold call osalLockFreeQueuePush
      simp only [LockFreeQueue.isFull_eq hq, hfull, decide_false, Option.bind_eq_bind,
        Option.bind_some, LockFreeQueue.pushCopy₁_eq hq hmsg, LockFreeQueue.pushCopy₂_eq hstore,
        LockFreeQueue.pushAdvance_eq hstore, if_true, Bool.false_eq_true, if_false]
    · show l.accepted ++ [_] = l.popped ++ (xs ++ [_])
      rw [hlog, List.append_assoc]

theorem call_pop (h : l.Inv n) {msg : List UInt8} (hmsg : l.queue.msgSize ≤ msg.length) :
    ∃ ret l', l.call (.pop msg) = some (ret, l') ∧ l'.Inv n ∧ l'.queue.msgSize = l.queue.msgSize ∧
      (ret = 0 ∧ l.popped ≠ l.accepted ∨ ret = -1 ∧ l.popped = l.accepted ∧ l' = l) := by
  obtain ⟨r, xs, hq, hlog⟩ := h
  cases xs with
  | nil =>
    refine ⟨-1, l, ?_, ⟨r, [], hq, hlog⟩, rfl, .inr ⟨rfl, ?_, rfl⟩⟩
    · unfold call osalLockFreeQueuePop
      simp [LockFreeQueue.isEmpty_eq hq]
    · rw [hlog, List.append_nil]
  | cons x xs =>
    refine ⟨0, ⟨_, l.accepted, l.popped ++ [x]⟩, ?_, ⟨_, xs, hq.release, ?_⟩, rfl,
      .inl ⟨rfl, fun he => ?_⟩⟩
    · have htake : (x ++ msg.drop l.queue.msgSize).take l.queue.msgSize = x :=
        List.take_left' hq.head_length
      unfold call osalLockFreeQueuePop
      simp only [LockFreeQueue.isEmpty_eq hq, reduceCtorEq, decide_false, Option.bind_eq_bind,
        Option.bind_some, LockFreeQueue.popCopy₁_eq hq hmsg, LockFreeQueue.popCopy₂_eq hq,
        LockFreeQueue.popAdvance_eq hq, if_true, Bool.false_eq_true, if_false, Option.getD_some,
        htake]
    · show l.accepted = l.popped ++ [x] ++ xs
      rw [hlog, List.append_assoc, List.singleton_append]
    · rw [hlog] at he
      exact List.cons_ne_nil x xs (List.self_eq_append_right.1 he)

theorem call_inv (h : l.Inv n) {c : QueueCall} (hc : l.queue.msgSize ≤ c.bufferLength) :
    ∃ ret l', l.call c = some (ret, l') ∧ l'.Inv n ∧ l'.queue.msgSize = l.queue.msgSize := by
  cases c with
  | push msg =>
    obtain ⟨ret, l', hcall, hinv, hsize, -⟩ := call_push h hc
    exact ⟨ret, l', hcall, hinv, hsize⟩
  | pop msg =>
    obtain ⟨ret, l', hcall, hinv, hsize, -⟩ := call_pop h hc
    exact ⟨ret, l', hcall, hinv, hsize⟩

theorem run_inv (cs : List QueueCall) : ∀ {l : QueueLog}, l.Inv n →
    (∀ c ∈ cs, l.queue.msgSize ≤ c.bufferLength) →
    ∃ l', run cs l = some l' ∧ l'.Inv n ∧ l'.queue.msgSize = l.queue.msgSize := by
  induction cs with
  | nil => exact fun h _ => ⟨_, rfl, h, rfl⟩
  | cons c cs ih =>
    intro l h hc
    obtain ⟨ret, l₁, hcall, h₁, hsize₁⟩ := call_inv h (hc c List.mem_cons_self)
    obtain ⟨l₂, hrun, h₂, hsize₂⟩ := ih h₁ fun c' hc' => by
      rw [hsize₁]
      exact hc c' (List.mem_cons_of_mem c hc')
    refine ⟨l₂, ?_, h₂, hsize₂.trans hsize₁⟩
    rw [run, hcall]
    exact hrun

theorem init_inv {msgSize msgMax : Nat} {q : LockFreeQueue} (hsmall : msgSize * msgMax < 2 ^ 32)
    (hq : osalLockFreeQueueInit msgSize msgMax true = some q) : Inv msgMax ⟨q, [], []⟩ :=
  ⟨0, [], (osalLockFreeQueueInit_holds hsmall hq).2, rfl⟩

/-- **The queue is a FIFO**: after any pushes and pops, the delivered messages are a prefix of the
accepted ones, a further pop is refused exactly when all of them were delivered, and a refused call
leaves the queue as it was. -/
theorem run_fifo {msgSize msgMax : Nat} {q : LockFreeQueue} (hsmall : msgSize * msgMax < 2 ^ 32)
    (hq : osalLockFreeQueueInit msgSize msgMax true = some q) {calls : List QueueCall}
    (hbuf : ∀ c ∈ calls, msgSize ≤ c.bufferLength) :
    ∃ l, run calls ⟨q, [], []⟩ = some l ∧ l.popped <+: l.accepted ∧
      (∀ msg : List UInt8, msgSize ≤ msg.length →
        ∃ ret l', l.call (.push msg) = some (ret, l') ∧ (ret = 0 ∨ ret = -1) ∧
          (ret = -1 → l'.queue = l.queue)) ∧
      (∀ msg : List UInt8, msgSize ≤ msg.length →
        ∃ ret l', l.call (.pop msg) = some (ret, l') ∧ (ret = 0 ∨ ret = -1) ∧
          (ret = -1 ↔ l.popped = l.accepted) ∧ (ret = -1 → l'.queue = l.queue)) := by
  have hsize := (osalLockFreeQueueInit_holds hsmall hq).1
  obtain ⟨l, hrun, hinv, hl⟩ := run_inv calls (init_inv hsmall hq) (by rw [hsize]; exact hbuf)
  have hl' : l.queue.msgSize = msgSize := hl.trans hsize
  refine ⟨l, hrun, ?_, fun msg hmsg => ?_, fun msg hmsg => ?_⟩
  · obtain ⟨r, xs, -, hlog⟩ := hinv
    exact ⟨xs, hlog.symm⟩
  · obtain ⟨ret, l', hcall, -, -, ⟨rfl, -⟩ | ⟨rfl, -, rfl⟩⟩ := call_push hinv (hl' ▸ hmsg)
    · exact ⟨0, l', hcall, .inl rfl, fun h => absurd h (by decide)⟩
    · exact ⟨-1, _, hcall, .inr rfl, fun _ => rfl⟩
  · obtain ⟨ret, l', hcall, -, -, ⟨rfl, hne⟩ | ⟨rfl, he, rfl⟩⟩ := call_pop hinv (hl' ▸ hmsg)
    · exact ⟨0, l', hcall, .inl rfl, ⟨fun h => absurd h (by decide), fun h => absurd h hne⟩,
        fun h => absurd h (by decide)⟩
    · exact ⟨-1, _, hcall, .inr rfl, ⟨fun _ => he, fun _ => rfl⟩, fun _ => rfl⟩

/-- Three messages of one byte offered to a ring of three slots, then one taken: the third is refused. -/
theorem run_fifo_three : ∃ q l, osalLockFreeQueueInit 1 3 true = some q ∧
    run [.push [7], .push [8], .push [9], .pop [0]] ⟨q, [], []⟩ = some l ∧
    l.accepted = [[7], [8]] ∧ l.popped = [[7]] ∧ l.popped <+: l.accepted ∧
    ∃ ret l', l.call (.pop [0]) = some (ret, l') ∧ ret = 0 := by
  obtain ⟨l, hrun, hpre, -, hpop⟩ := @run_fifo 1 3 _ (by decide) rfl
    [.push [7], .push [8], .push [9], .pop [0]] (by decide)
  obtain ⟨ret, l', hcall, hret, hiff, -⟩ := hpop [0] (by decide)
  have hlogs : l.accepted = [[7], [8]] ∧ l.popped = [[7]] := by
    obtain rfl := Option.some.inj hrun
    exact ⟨rfl, rfl⟩
  refine ⟨_, l, rfl, hrun, hlogs.1, hlogs.2, hpre, ret, l', hcall, hret.resolve_right fun hneg => ?_⟩
  have he := hiff.1 hneg
  rw [hlogs.1, hlogs.2] at he
  exact absurd he (by decide)

/-! ## The capacity -/

/-- A push of `msg` after the calls `pre` is accepted exactly when fewer than `msgMax` messages are in
the queue. -/
def PushAgrees (q : LockFreeQueue) (msgMax : Nat) (pre : List QueueCall) (msg : List UInt8) : Prop :=
  ∃ l ret l', run pre ⟨q, [], []⟩ = some l ∧ l.call (.push msg) = some (ret, l') ∧
    (ret = 0 ↔ l.pending < msgMax)

/-- **The capacity of the queue** is `msg_max - 1` : the pushes of a sequence are all answered as by a
queue of `msg_max` messages exactly when none of them meets `msg_max - 1` messages. -/
theorem push_agrees_iff {msgSize msgMax : Nat} {q : LockFreeQueue}
    (hsmall : msgSize * msgMax < 2 ^ 32)
    (hq : osalLockFreeQueueInit msgSize msgMax true = some q) {calls : List QueueCall}
    (hbuf : ∀ c ∈ calls, msgSize ≤ c.bufferLength) :
    (∀ pre msg, pre ++ [.push msg] <+: calls → PushAgrees q msgMax pre msg) ↔
      ∀ pre msg l, pre ++ [.push msg] <+: calls → run pre ⟨q, [], []⟩ = some l →
        l.pending ≠ msgMax - 1 := by
  have hsize := (osalLockFreeQueueInit_holds hsmall hq).1
  have hmax : 0 < msgMax := (osalLockFreeQueueInit_holds hsmall hq).2.slots_pos
  have key : ∀ pre msg, pre ++ [.push msg] <+: calls →
      ∃ l, run pre ⟨q, [], []⟩ = some l ∧ (PushAgrees q msgMax pre msg ↔ l.pending ≠ msgMax - 1) := by
    intro pre msg hpre
    have hmem : ∀ c ∈ pre ++ [QueueCall.push msg], msgSize ≤ c.bufferLength := fun c hc =>
      hbuf c (hpre.subset hc)
    obtain ⟨l, hrun, hinv, hl⟩ := run_inv pre (init_inv hsmall hq) fun c hc => by
      rw [hsize]
      exact hmem c (List.mem_append_left _ hc)
    have hmsg : l.queue.msgSize ≤ msg.length := by
      rw [hl.trans hsize]
      exact hmem (.push msg) (by simp)
    obtain ⟨ret, l', hcall, -, -, hcases⟩ := call_push hinv hmsg
    refine ⟨l, hrun, ?_⟩
    have hagree : PushAgrees q msgMax pre msg ↔ (ret = 0 ↔ l.pending < msgMax) := by
      constructor
      · rintro ⟨l₁, ret₁, l₁', hrun₁, hcall₁, hiff⟩
        obtain rfl := Option.some.inj (hrun.symm.trans hrun₁)
        obtain ⟨rfl, -⟩ := Prod.mk.inj (Option.some.inj (hcall.symm.trans hcall₁))
        exact hiff
      · exact fun hiff => ⟨l, ret, l', hrun, hcall, hiff⟩
    rw [hagree]
    rcases hcases with ⟨rfl, hlt⟩ | ⟨rfl, heq, -⟩
    · omega
    · omega
  constructor
  · intro h pre msg l hpre hrun
    obtain ⟨l₁, hrun₁, hiff⟩ := key pre msg hpre
    obtain rfl := Option.some.inj (hrun.symm.trans hrun₁)
    exact hiff.1 (h pre msg hpre)
  · intro h pre msg hpre
    obtain ⟨l, hrun, hiff⟩ := key pre msg hpre
    exact hiff.2 (h pre msg l hpre hrun)

/-- A push into an empty ring of three slots and one that meets a message are answered as by a queue of
three. -/
theorem push_agrees_iff_three : ∃ q, osalLockFreeQueueInit 1 3 true = some q ∧
    ∀ pre msg, pre ++ [.push msg] <+: [QueueCall.push [7], .push [8]] → PushAgrees q 3 pre msg := by
  refine ⟨_, rfl, (push_agrees_iff (by decide)
    (rfl : osalLockFreeQueueInit 1 3 true = some _) (by decide)).2 fun pre msg l hpre hrun => ?_⟩
  obtain rfl | rfl : pre = [] ∨ pre = [.push [7]] := by
    have hpre' := (List.prefix_append _ _).trans hpre
    cases pre with
    | nil => exact .inl rfl
    | cons c pre =>
      obtain ⟨rfl, hrest⟩ := List.cons_prefix_cons.1 hpre'
      have hlen := hpre.length_le
      simp only [List.length_append, List.length_cons, List.length_nil] at hlen
      rw [List.eq_nil_of_length_eq_zero (l := pre) (by omega)]
      exact .inr rfl
  · obtain rfl := Option.some.inj hrun
    decide
  · obtain rfl := Option.some.inj hrun
    decide

/-- The second push into a queue made for two messages is refused. -/
theorem push_refused_below_msgMax : ∃ q l l', osalLockFreeQueueInit 1 2 true = some q ∧
    run [.push [7]] ⟨q, [], []⟩ = some l ∧ l.pending < 2 ∧
    l.call (.push [8]) = some (-1, l') := by
  refine ⟨_, _, _, rfl, rfl, by decide, rfl⟩

end QueueLog

end FwkMlib.Osal
