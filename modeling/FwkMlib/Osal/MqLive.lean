import FwkMlib.Osal.MqLocks
import FwkMlib.Lib.Stride

/-!
# A live message queue of any size

`osal_posix_mq_create` takes any sizes, so the 32-bit sums and the product in the lock-free queue may
wrap. What remains true then is that the offsets move on alike: the write offset has made as many
steps as messages were accepted, the read offset as many as were delivered, and they are never a
whole period apart.

* `MqShared.Indexed` : the offsets and the number of messages in the queue; an empty test finds the
  queue empty exactly when no message is left in it (`Indexed.isEmpty_iff`);
* `Call.Rely`, `Yields` : what a call relies on, and what a step grants the other calls;
* `Tally` : how one step changes the numbers of messages, of pending signals and of waiting
  receivers;
* `sendStep_live`, `recvStep_live` : the steps of a call.
-/

namespace FwkMlib.Osal
open FwkMlib.Lib

/-! ## Offsets -/

/-- The offset one message behind `x`. -/
def LockFreeQueue.next (q : LockFreeQueue) : Nat → Nat := hop (2 ^ 32) q.msgSize q.totalSize

noncomputable def LockFreeQueue.period (q : LockFreeQueue) : Nat :=
  if q.totalSize = 0 then 1 else Function.minimalPeriod q.next 0

theorem LockFreeQueue.wrap_next {q : LockFreeQueue} {x y : Nat}
    (h : q.wrap (u32 (x + q.msgSize)) = some y) : q.totalSize ≠ 0 ∧ y = q.next x := by
  unfold LockFreeQueue.wrap at h
  split_ifs at h with h0
  exact ⟨h0, (Option.some.inj h).symm⟩

/-- The offsets follow the logs, and are less than a period apart. -/
structure MqShared.Indexed (sh : MqShared) : Prop where
  le : sh.popped.length ≤ sh.accepted.length
  write : sh.rawQueue.write = sh.rawQueue.next^[sh.accepted.length] 0
  read : sh.rawQueue.read = sh.rawQueue.next^[sh.popped.length] 0
  room : sh.pending.length < sh.rawQueue.period

theorem MqShared.length_pending (sh : MqShared) :
    sh.pending.length = sh.accepted.length - sh.popped.length := by
  rw [pending, List.length_drop, List.length_map]

variable {sh sh' : MqShared} {i : Nat}

theorem LockFreeQueue.next_inj {q : LockFreeQueue} {a b : Nat} (hba : b ≤ a)
    (hlt : a - b < q.period) (h : q.next^[a] 0 = q.next^[b] 0) : a = b := by
  unfold LockFreeQueue.period at hlt
  split_ifs at hlt with h0
  · omega
  · exact iterate_hop_inj (by decide) (Nat.pos_of_ne_zero h0) hba hlt h

/-- **`osal_lock_free_queue_is_empty`** is right about the messages in the queue. -/
theorem MqShared.Indexed.isEmpty_iff (h : sh.Indexed) :
    sh.rawQueue.isEmpty = true ↔ sh.pending.length = 0 := by
  have hlen := sh.length_pending
  have hroom := h.room
  unfold LockFreeQueue.isEmpty
  rw [decide_eq_true_eq, h.read, h.write]
  constructor
  · intro heq
    have := LockFreeQueue.next_inj h.le (by omega) heq.symm
    omega
  · intro h0
    have hle := h.le
    have heq : sh.accepted.length = sh.popped.length := by omega
    rw [heq]

/-- **`osal_lock_free_queue_is_full`** keeps one offset free. -/
theorem MqShared.Indexed.room_of_isFull (h : sh.Indexed) (hf : sh.rawQueue.isFull = some false) :
    sh.pending.length + 1 < sh.rawQueue.period := by
  unfold LockFreeQueue.isFull at hf
  obtain ⟨y, hy, hf⟩ := Option.bind_eq_some_iff.1 hf
  obtain ⟨h0, rfl⟩ := LockFreeQueue.wrap_next hy
  have hne : sh.rawQueue.next sh.rawQueue.write ≠ sh.rawQueue.read :=
    of_decide_eq_false (Option.some.inj hf)
  rw [h.write, h.read, ← Function.iterate_succ_apply' sh.rawQueue.next] at hne
  have hroom := h.room
  have hlen := sh.length_pending
  have hle := h.le
  -- at a full period the next offset is the read offset again
  refine Nat.lt_of_le_of_ne hroom fun hfull => hne ?_
  have hperiod : sh.rawQueue.period = Function.minimalPeriod sh.rawQueue.next 0 := if_neg h0
  have hsum : sh.accepted.length.succ =
      sh.popped.length + Function.minimalPeriod sh.rawQueue.next 0 := by omega
  rw [hsum, Function.iterate_add_minimalPeriod_eq]

/-! ## Calls -/

namespace Call

/-- A send that has put its message into the queue and has not signalled yet. -/
def pushed : Call → Bool
  | .send .unlockW _ | .send .lockR _ | .send .signal _ => true
  | _ => false

def blocked : Call → Bool
  | .recv .blocked _ _ => true
  | _ => false

/-- A receive that has found the queue empty and has not been woken since. -/
def waiting : Call → Bool
  | .recv .wait _ _ | .recv .blocked _ _ => true
  | _ => false

/-- A receive woken to try again, on its way to the next `osal_lock_free_queue_pop`. -/
def retrying : Call → Bool
  | .recv (.relock ret) _ _ => decide (ret ≠ ETIMEDOUT)
  | .recv .checkExit _ _ => true
  | _ => false

/-- A receive inside `osal_lock_free_queue_pop`, the test of the loop. -/
def popping : Call → Bool
  | .recv .testEmpty _ _ | .recv .copy₁ _ _ | .recv .copy₂ _ _ | .recv .advance _ _ => true
  | _ => false

def storing : Call → Bool
  | .send .copy₁ _ | .send .copy₂ _ | .send .advance _ => true
  | _ => false

def taking : Call → Bool
  | .recv .copy₁ _ _ | .recv .copy₂ _ _ | .recv .advance _ _ => true
  | _ => false

theorem eq_of_blocked {c : Call} (h : c.blocked) :
    ∃ timeoutMs msg, c = .recv .blocked timeoutMs msg := by
  unfold blocked at h
  split at h
  · exact ⟨_, _, rfl⟩
  · exact absurd h Bool.false_ne_true

structure Rely (sh : MqShared) (i : Nat) (c : Call) : Prop where
  ownsW : c.holdsW → sh.wMutex = some (.call i)
  ownsR : c.holdsR → sh.rMutex = some (.call i)
  room : c.storing → sh.pending.length + 1 < sh.rawQueue.period
  some : c.taking → 0 < sh.pending.length
  cond : i ∈ sh.cond ↔ c.blocked

end Call

/-- What a step of the call `i` grants the others; `woken` are those it wakes. -/
structure Yields (i : Nat) (sh sh' : MqShared) (woken : List Nat) : Prop where
  exitFlag : sh'.exitFlag = sh.exitFlag
  period : sh'.rawQueue.period = sh.rawQueue.period
  wMutex : ∀ j ≠ i, sh.wMutex = some (.call j) → sh'.wMutex = some (.call j)
  rMutex : ∀ j ≠ i, sh.rMutex = some (.call j) → sh'.rMutex = some (.call j)
  producer : ∀ j ≠ i, sh.wMutex = some (.call j) → sh'.pending.length ≤ sh.pending.length
  consumer : ∀ j ≠ i, sh.rMutex = some (.call j) → sh.pending.length ≤ sh'.pending.length
  cond : ∀ j ≠ i, j ∈ sh'.cond ↔ j ∈ sh.cond ∧ j ∉ woken
  woken : ∀ j ∈ woken, j ∈ sh.cond

/-- What a step of a call does to the number of messages, to the signals still to come and to the
receivers that wait or try again. -/
inductive Tally (sh sh' : MqShared) (c c' : Call) : List Nat → Prop
  | quiet (hpend : sh'.pending.length = sh.pending.length) (hpushed : c'.pushed = c.pushed)
      (hwaiting : c'.waiting → c.waiting)
      (hkeep : c.retrying ∨ c.popping → c'.retrying ∨ c'.popping) : Tally sh sh' c c' []
  | push (hpend : sh'.pending.length = sh.pending.length + 1) (hpushed : c.pushed = false)
      (hpushed' : c'.pushed = true) (hwaiting : c'.waiting = false)
      (hkeep : c.retrying ∨ c.popping → c'.retrying ∨ c'.popping) : Tally sh sh' c c' []
  | signal {j : Nat} (hpend : sh'.pending.length = sh.pending.length) (hj : j ∈ sh.cond)
      (hself : c.blocked = false) (hwaiting : c'.waiting = false)
      (hkeep : c.retrying ∨ c.popping → c'.retrying ∨ c'.popping) : Tally sh sh' c c' [j]
  | nobody (hcond : sh.cond = []) (hholds : c.holdsR = true) (hwaiting : c'.waiting = false) :
    Tally sh sh' c c' []
  | pop (hpend : sh'.pending.length + 1 = sh.pending.length) (hpushed : c'.pushed = c.pushed)
      (hwaiting : c'.waiting = false) : Tally sh sh' c c' []
  | drained (hpend : sh'.pending.length = 0) : Tally sh sh' c c' []

theorem Call.Rely.stable {j : Nat} {c : Call} {woken : List Nat} (h : c.Rely sh j)
    (hy : Yields i sh sh' woken) (hj : j ≠ i) (hw : j ∉ woken) : c.Rely sh' j := by
  have hstoring : c.storing → c.holdsW := by
    unfold Call.storing Call.holdsW
    split <;> simp
  have htaking : c.taking → c.holdsR := by
    unfold Call.taking Call.holdsR
    split <;> simp
  refine ⟨fun hh => hy.wMutex j hj (h.ownsW hh), fun hh => hy.rMutex j hj (h.ownsR hh),
    fun hs => ?_, fun ht => ?_, ?_⟩
  · have := hy.producer j hj (h.ownsW (hstoring hs))
    rw [hy.period]
    exact Nat.lt_of_le_of_lt (Nat.succ_le_succ this) (h.room hs)
  · exact Nat.lt_of_lt_of_le (h.some ht) (hy.consumer j hj (h.ownsR (htaking ht)))
  · rw [hy.cond j hj, h.cond]
    exact ⟨And.left, fun hb => ⟨hb, hw⟩⟩

theorem Call.Rely.wake {j : Nat} {c : Call} {woken : List Nat} (h : c.Rely sh j)
    (hy : Yields i sh sh' woken) (hj : j ≠ i) (hw : j ∈ woken) : (c.wake 0).Rely sh' j := by
  obtain ⟨timeoutMs, msg, rfl⟩ := Call.eq_of_blocked (h.cond.1 (hy.woken j hw))
  refine ⟨nofun, nofun, nofun, nofun, ?_⟩
  rw [hy.cond j hj]
  exact ⟨fun hc => absurd hw hc.2, nofun⟩

/-! ## Steps that leave the queue and the logs alone -/

theorem MqShared.pending_eq (ha : sh'.accepted = sh.accepted) (hp : sh'.popped = sh.popped) :
    sh'.pending = sh.pending := by rw [pending, pending, ha, hp]

theorem MqShared.Indexed.of_eq (h : sh.Indexed) (hq : sh'.rawQueue = sh.rawQueue)
    (ha : sh'.accepted = sh.accepted) (hp : sh'.popped = sh.popped) : sh'.Indexed := by
  refine ⟨by rw [ha, hp]; exact h.le, by rw [hq, ha]; exact h.write, by rw [hq, hp]; exact h.read, ?_⟩
  rw [hq, pending_eq ha hp]
  exact h.room

theorem not_held {m : Option Party} {j : Nat} (h : m = some (.call i)) (hj : j ≠ i) :
    m ≠ some (.call j) := fun h' => hj (Party.call.inj (Option.some.inj (h'.symm.trans h)))

theorem Yields.of_eq (hx : sh'.exitFlag = sh.exitFlag)
    (hp : sh'.rawQueue.period = sh.rawQueue.period) (hw : sh'.wMutex = sh.wMutex)
    (hr : sh'.rMutex = sh.rMutex) (hpend : sh'.pending.length = sh.pending.length)
    (hc : sh'.cond = sh.cond) : Yields i sh sh' [] where
  exitFlag := hx
  period := hp
  wMutex _ _ h := hw.trans h
  rMutex _ _ h := hr.trans h
  producer _ _ _ := hpend.le
  consumer _ _ _ := hpend.ge
  cond _ _ := by rw [hc]; simp
  woken := nofun

/-- What a step of the call `i` establishes. -/
structure LiveStep (sh sh' : MqShared) (i : Nat) (c c' : Call) (woken : List Nat) : Prop where
  indexed : sh'.Indexed
  nodup : sh'.cond.Nodup
  rely : c'.Rely sh' i
  yields : Yields i sh sh' woken
  tally : Tally sh sh' c c' woken

theorem LiveStep.mutex {c c' : Call} {w r : Option Party} (h : sh.Indexed) (hn : sh.cond.Nodup)
    (hc : c'.Rely { sh with wMutex := w, rMutex := r } i)
    (hw : w = sh.wMutex ∨ sh.wMutex = none ∨ sh.wMutex = some (.call i))
    (hr : r = sh.rMutex ∨ sh.rMutex = none ∨ sh.rMutex = some (.call i))
    (ht : Tally sh { sh with wMutex := w, rMutex := r } c c' []) :
    LiveStep sh { sh with wMutex := w, rMutex := r } i c c' [] where
  indexed := h.of_eq rfl rfl rfl
  nodup := hn
  rely := hc
  yields := by
    refine ⟨rfl, rfl, fun j hj => ?_, fun j hj => ?_, fun _ _ _ => le_rfl, fun _ _ _ => le_rfl,
      by simp, nofun⟩
    · exact taken_or_left hw _ fun he => hj (Party.call.inj he)
    · exact taken_or_left hr _ fun he => hj (Party.call.inj he)
  tally := ht

/-! ## The steps of a send -/

theorem accept_live {msg x : List UInt8} (h : sh.Indexed) (hn : sh.cond.Nodup)
    (hw : sh.wMutex = some (.call i)) (hroom : sh.pending.length + 1 < sh.rawQueue.period)
    (hcond : i ∈ sh.cond ↔ (Call.send .advance msg).blocked) :
    LiveStep sh { sh with
      rawQueue := { sh.rawQueue with write := sh.rawQueue.next sh.rawQueue.write }
      accepted := sh.accepted ++ [(i, x)] } i (.send .advance msg) (.send .unlockW msg) [] := by
  have hlen := sh.length_pending
  have hle := h.le
  have hlen' : (MqShared.pending { sh with
      rawQueue := { sh.rawQueue with write := sh.rawQueue.next sh.rawQueue.write }
      accepted := sh.accepted ++ [(i, x)] }).length = sh.pending.length + 1 := by
    rw [MqShared.length_pending]
    show (sh.accepted ++ [(i, x)]).length - sh.popped.length = _
    rw [List.length_append, List.length_singleton]
    omega
  refine ⟨⟨?_, ?_, h.read, ?_⟩, hn, ⟨fun _ => hw, nofun, nofun, nofun, hcond⟩,
    ⟨rfl, rfl, fun _ _ h' => h', fun _ _ h' => h', fun j hj h' => absurd h' (not_held hw hj), ?_, by simp, nofun⟩,
    .push hlen' rfl rfl rfl nofun⟩
  · show sh.popped.length ≤ (sh.accepted ++ [(i, x)]).length
    rw [List.length_append]
    omega
  · show sh.rawQueue.next sh.rawQueue.write = sh.rawQueue.next^[(sh.accepted ++ [(i, x)]).length] 0
    rw [List.length_append, List.length_singleton, Function.iterate_succ_apply', ← h.write]
  · rw [hlen']
    exact hroom
  · intro j hj h'
    rw [hlen']
    exact Nat.le_succ _

theorem sendStep_live {pc pc' : SendPc} {msg : List UInt8} {choice : Option Nat} {woken : List Nat}
    (h : sh.Indexed) (hn : sh.cond.Nodup) (hc : (Call.send pc msg).Rely sh i)
    (hs : sendStep sh i choice msg pc = some (sh', pc', woken)) :
    LiveStep sh sh' i (.send pc msg) (.send pc' msg) woken := by
  have hy : Yields i sh sh [] := .of_eq rfl rfl rfl rfl rfl rfl
  cases sendStep_cases hs with
  | lockW hfree =>
    exact .mutex h hn ⟨fun _ => rfl, nofun, nofun, nofun, hc.cond⟩ (.inr (.inl hfree)) (.inl rfl)
      (.quiet rfl rfl nofun nofun)
  | full hfull =>
    exact ⟨h, hn, ⟨fun _ => hc.ownsW rfl, nofun, nofun, nofun, hc.cond⟩, hy,
      .quiet rfl rfl nofun nofun⟩
  | room hfull =>
    exact ⟨h, hn, ⟨fun _ => hc.ownsW rfl, nofun, fun _ => h.room_of_isFull hfull, nofun, hc.cond⟩,
      hy, .quiet rfl rfl nofun nofun⟩
  | copy₁ hcopy =>
    obtain ⟨buf, rfl⟩ := LockFreeQueue.pushCopy₁_buffer hcopy
    exact ⟨⟨h.le, h.write, h.read, h.room⟩, hn,
      ⟨fun _ => hc.ownsW rfl, nofun, fun _ => hc.room rfl, nofun, hc.cond⟩,
      .of_eq rfl rfl rfl rfl rfl rfl,
      .quiet rfl rfl nofun nofun⟩
  | copy₂ hcopy =>
    obtain ⟨buf, rfl⟩ := LockFreeQueue.pushCopy₂_buffer hcopy
    exact ⟨⟨h.le, h.write, h.read, h.room⟩, hn,
      ⟨fun _ => hc.ownsW rfl, nofun, fun _ => hc.room rfl, nofun, hc.cond⟩,
      .of_eq rfl rfl rfl rfl rfl rfl,
      .quiet rfl rfl nofun nofun⟩
  | advance hadv =>
    obtain ⟨y, hy, hq⟩ := Option.bind_eq_some_iff.1 hadv
    obtain ⟨-, rfl⟩ := LockFreeQueue.wrap_next hy
    cases hq
    exact accept_live h hn (hc.ownsW rfl) (hc.room rfl) hc.cond
  | unlockFail | unlockW =>
    exact .mutex h hn ⟨nofun, nofun, nofun, nofun, hc.cond⟩ (.inr (.inr (hc.ownsW rfl))) (.inl rfl)
      (.quiet rfl rfl nofun nofun)
  | lockR hfree =>
    exact .mutex h hn ⟨nofun, fun _ => rfl, nofun, nofun, hc.cond⟩ (.inl rfl) (.inr (.inl hfree))
      (.quiet rfl rfl nofun nofun)
  | nobody hcond =>
    exact ⟨h, hn, ⟨nofun, fun _ => hc.ownsR rfl, nofun, nofun, hc.cond⟩, hy,
      .nobody hcond rfl rfl⟩
  | @signal j hj =>
    have hself : i ∉ sh.cond := fun hi => Bool.false_ne_true (hc.cond.1 hi)
    have hmem : ∀ k, k ∈ sh.cond.erase j ↔ k ∈ sh.cond ∧ k ∉ [j] := by
      intro k
      rw [hn.mem_erase_iff, List.mem_singleton, and_comm]
    refine ⟨h.of_eq rfl rfl rfl, hn.erase j, ⟨nofun, fun _ => hc.ownsR rfl, nofun, nofun, ?_⟩,
      ⟨rfl, rfl, fun _ _ h' => h', fun _ _ h' => h', fun _ _ _ => le_rfl, fun _ _ _ => le_rfl,
        fun k _ => hmem k, fun k hk => ?_⟩, .signal rfl hj rfl rfl nofun⟩
    · exact ⟨fun hi => absurd (List.mem_of_mem_erase hi) hself, nofun⟩
    · rwa [List.mem_singleton.1 hk]
  | unlockR =>
    exact .mutex h hn ⟨nofun, nofun, nofun, nofun, hc.cond⟩ (.inl rfl) (.inr (.inr (hc.ownsR rfl)))
      (.quiet rfl rfl nofun nofun)

/-! ## The steps of a receive -/

theorem deliver_live {timeoutMs ret : Int} {msg x : List UInt8} (h : sh.Indexed)
    (hn : sh.cond.Nodup) (hr : sh.rMutex = some (.call i)) (hpos : 0 < sh.pending.length)
    (hcond : i ∈ sh.cond ↔ (Call.recv .advance timeoutMs msg).blocked) :
    LiveStep sh { sh with
      rawQueue := { sh.rawQueue with read := sh.rawQueue.next sh.rawQueue.read }
      popped := sh.popped ++ [(i, x)] } i (.recv .advance timeoutMs msg)
        (.recv (.unlockR ret) timeoutMs msg) [] := by
  have hlen := sh.length_pending
  have hroom := h.room
  have hlen' : (MqShared.pending { sh with
      rawQueue := { sh.rawQueue with read := sh.rawQueue.next sh.rawQueue.read }
      popped := sh.popped ++ [(i, x)] }).length + 1 = sh.pending.length := by
    rw [MqShared.length_pending]
    show sh.accepted.length - (sh.popped ++ [(i, x)]).length + 1 = _
    rw [List.length_append, List.length_singleton]
    omega
  refine ⟨⟨?_, h.write, ?_, ?_⟩, hn, ⟨nofun, fun _ => hr, nofun, nofun, hcond⟩,
    ⟨rfl, rfl, fun _ _ h' => h', fun _ _ h' => h', ?_, fun j hj h' => absurd h' (not_held hr hj), by simp, nofun⟩,
    .pop hlen' rfl rfl⟩
  · show (sh.popped ++ [(i, x)]).length ≤ sh.accepted.length
    rw [List.length_append, List.length_singleton]
    omega
  · show sh.rawQueue.next sh.rawQueue.read = sh.rawQueue.next^[(sh.popped ++ [(i, x)]).length] 0
    rw [List.length_append, List.length_singleton, Function.iterate_succ_apply', ← h.read]
  · show _ < sh.rawQueue.period
    omega
  · intro j hj h'
    omega

theorem recvStep_live {pc pc' : RecvPc} {timeoutMs : Int} {msg msg' : List UInt8}
    (h : sh.Indexed) (hn : sh.cond.Nodup) (hx : sh.exitFlag = false)
    (hc : (Call.recv pc timeoutMs msg).Rely sh i)
    (hs : recvStep sh i timeoutMs msg pc = some (sh', pc', msg')) :
    LiveStep sh sh' i (.recv pc timeoutMs msg) (.recv pc' timeoutMs msg') [] := by
  have hy : Yields i sh sh [] := .of_eq rfl rfl rfl rfl rfl rfl
  cases recvStep_cases hs with
  | lockR hfree =>
    exact .mutex h hn ⟨nofun, fun _ => rfl, nofun, nofun, hc.cond⟩ (.inl rfl) (.inr (.inl hfree))
      (.quiet rfl rfl nofun nofun)
  | noWait hempty h0 | mustWait hempty h0 =>
    exact ⟨h, hn, ⟨nofun, fun _ => hc.ownsR rfl, nofun, nofun, hc.cond⟩, hy,
      .drained (h.isEmpty_iff.1 hempty)⟩
  | found hempty =>
    have hpos : 0 < sh.pending.length := Nat.pos_of_ne_zero fun h0 => hempty (h.isEmpty_iff.2 h0)
    exact ⟨h, hn, ⟨nofun, fun _ => hc.ownsR rfl, nofun, fun _ => hpos, hc.cond⟩, hy,
      .quiet rfl rfl nofun fun _ => .inr rfl⟩
  | copy₁ hcopy | copy₂ hcopy =>
    exact ⟨h, hn, ⟨nofun, fun _ => hc.ownsR rfl, nofun, fun _ => hc.some rfl, hc.cond⟩, hy,
      .quiet rfl rfl nofun fun _ => .inr rfl⟩
  | advance hadv =>
    obtain ⟨y, hy, hq⟩ := Option.bind_eq_some_iff.1 hadv
    obtain ⟨-, rfl⟩ := LockFreeQueue.wrap_next hy
    cases hq
    exact deliver_live h hn (hc.ownsR rfl) (hc.some rfl) hc.cond
  | wait =>
    have hself : i ∉ sh.cond := fun hi => Bool.false_ne_true (hc.cond.1 hi)
    refine ⟨h.of_eq rfl rfl rfl, ?_, ⟨nofun, nofun, nofun, nofun, by simp [Call.blocked]⟩,
      ⟨rfl, rfl, fun _ _ h' => h', fun j hj h' => absurd h' (not_held (hc.ownsR rfl) hj),
        fun _ _ _ => le_rfl, fun _ _ _ => le_rfl, fun j hj => ?_, nofun⟩,
      .quiet rfl rfl (fun _ => rfl) nofun⟩
    · exact List.nodup_append_comm.1 (List.nodup_cons.2 ⟨hself, hn⟩)
    · simp [hj]
  | late hfree =>
    refine .mutex h hn ⟨nofun, fun _ => rfl, nofun, nofun, hc.cond⟩ (.inl rfl) (.inr (.inl hfree))
      (.quiet rfl rfl nofun fun hr => ?_)
    simp [Call.retrying, Call.popping] at hr
  | woken hfree hret =>
    exact .mutex h hn ⟨nofun, fun _ => rfl, nofun, nofun, hc.cond⟩ (.inl rfl) (.inr (.inl hfree))
      (.quiet rfl rfl nofun fun _ => .inl rfl)
  | exit hexit => exact absurd (hx.symm.trans hexit) Bool.false_ne_true
  | again hexit =>
    exact ⟨h, hn, ⟨nofun, fun _ => hc.ownsR rfl, nofun, nofun, hc.cond⟩, hy,
      .quiet rfl rfl nofun fun _ => .inr rfl⟩
  | unlockR ret =>
    exact .mutex h hn ⟨nofun, nofun, nofun, nofun, hc.cond⟩ (.inl rfl) (.inr (.inr (hc.ownsR rfl)))
      (.quiet rfl rfl nofun nofun)

end FwkMlib.Osal
