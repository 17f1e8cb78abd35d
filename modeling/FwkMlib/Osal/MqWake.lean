import FwkMlib.Osal.MqLive
import Mathlib.Data.Set.Card

/-!
# No wake-up is lost

On a mq that is not destroyed, a receiver that sleeps is owed a wake-up for every message in the
queue: by a send that has not signalled yet, or by a receiver that was woken and has not tried the
queue again.

* `Mq.WakeRun` : the runs, each with the receivers that were woken and have not tried again;
* `Mq.Live`, `Mq.Owed` : what holds of a mq that is not destroyed, whatever its sizes;
* `Mq.step_live` : its steps are those of `LiveStep`;
* `Mq.WakeRun.owed` : no wake-up is lost, in any state of any run.
-/

namespace FwkMlib.Osal
open FwkMlib.Lib

namespace Mq

/-- The sends that have put their message into the queue and have not signalled yet. -/
def signals (s : Mq) : Set Nat := {i | (s.calls i).pushed}

/-- The receivers that were woken and have not tried the queue again, `woken` being those of the
state before. -/
def retriers (s : Mq) (woken : Set Nat) : Set Nat :=
  {i | (s.calls i).retrying ∨ i ∈ woken ∧ (s.calls i).popping}

/-- The runs, with the receivers that were woken and have not tried the queue again. -/
inductive WakeRun (q : LockFreeQueue) : Mq → Set Nat → Prop
  | init : WakeRun q (init q) ∅
  | step {s s' : Mq} {l : Label} {woken : Set Nat} (h : WakeRun q s woken)
      (hs : s.step l = some s') : WakeRun q s' (s'.retriers woken)

/-- What holds of a mq that is not destroyed. -/
structure Live (s : Mq) : Prop where
  indexed : s.sh.Indexed
  nodup : s.sh.cond.Nodup
  exit : s.sh.exitFlag = false
  calls : ∀ i, (s.calls i).Rely s.sh i
  finite : {i | s.calls i ≠ .idle}.Finite

/-- A waiting receiver is owed a wake-up for every message. -/
structure Owed (s : Mq) (woken : Set Nat) : Prop where
  inLoop : ∀ i ∈ woken, (s.calls i).retrying ∨ (s.calls i).popping
  bound : (∃ i, (s.calls i).waiting) → s.sh.pending.length ≤ s.signals.ncard + woken.ncard

def takers (s : Mq) : Set Nat := {i | (s.calls i).taking}

/-- What a sleeping receiver is promised: each message in the queue has a send that will signal or a
receiver that was woken and has not finished its next `osal_lock_free_queue_pop`, the test of the
loop. Counted at the test of the indices, there may be one message more, which is just being taken
out. -/
structure NoneLost (s : Mq) (woken : Set Nat) : Prop where
  finiteSignals : s.signals.Finite
  finiteWoken : woken.Finite
  inLoop : ∀ i ∈ woken, (s.calls i).retrying ∨ (s.calls i).popping
  bound : s.sh.pending.length ≤ s.signals.ncard + woken.ncard
  oneTaker : s.takers.Subsingleton
  untested : s.sh.pending.length ≤ s.signals.ncard + (woken \ s.takers).ncard + s.takers.ncard
  someone : s.sh.pending ≠ [] → ∃ i, i ∈ s.signals ∨ i ∈ woken

variable {s s' : Mq} {woken : Set Nat} {i : Nat}

theorem Live.finite_signals (h : s.Live) : s.signals.Finite := by
  refine h.finite.subset fun i hi hidle => ?_
  rw [signals, Set.mem_ofPred_eq, hidle] at hi
  exact Bool.false_ne_true hi

theorem Live.finite_woken (h : s.Live) (ho : s.Owed woken) : woken.Finite := by
  refine h.finite.subset fun i hi hidle => ?_
  have := ho.inLoop i hi
  rw [hidle] at this
  exact this.elim Bool.false_ne_true Bool.false_ne_true

/-! ## Counting -/

theorem ncard_le_of_except {A B : Set Nat} (hB : B.Finite) (h : ∀ j ≠ i, j ∈ A → j ∈ B) :
    A.ncard ≤ B.ncard + 1 := by
  have hsub : A ⊆ insert i B := fun j hj => by
    by_cases he : j = i
    · exact .inl he
    · exact .inr (h j he hj)
  calc A.ncard ≤ (insert i B).ncard := Set.ncard_le_ncard hsub (hB.insert i)
    _ ≤ B.ncard + 1 := Set.ncard_insert_le i B

theorem ncard_lt_of_new {A B : Set Nat} (hB : B.Finite) (h : A ⊆ B) (hA : i ∉ A) (hi : i ∈ B) :
    A.ncard + 1 ≤ B.ncard := by
  rw [← Set.ncard_insert_of_notMem hA (hB.subset h)]
  exact Set.ncard_le_ncard (Set.insert_subset hi h) hB

/-! ## Calls woken -/

theorem pushed_wake (c : Call) (ret : Int) : (c.wake ret).pushed = c.pushed := by
  unfold Call.wake
  split <;> rfl

theorem waiting_wake {c : Call} {ret : Int} (h : (c.wake ret).waiting) : c.waiting := by
  unfold Call.wake at h
  split at h
  · rfl
  · exact h

theorem retrying_wake {c : Call} (h : c.blocked) : (c.wake 0).retrying := by
  obtain ⟨timeoutMs, msg, rfl⟩ := Call.eq_of_blocked h
  rfl

theorem not_inLoop {c : Call} (h : c.blocked) : ¬ (c.retrying ∨ c.popping) := by
  obtain ⟨timeoutMs, msg, rfl⟩ := Call.eq_of_blocked h
  exact nofun

theorem blocked_or_holdsR {c : Call} (h : c.waiting) : c.blocked ∨ c.holdsR := by
  unfold Call.waiting at h
  split at h
  · exact .inr rfl
  · exact .inl rfl
  · exact absurd h Bool.false_ne_true

theorem waiting_of_blocked {c : Call} (h : c.blocked) : c.waiting := by
  obtain ⟨timeoutMs, msg, rfl⟩ := Call.eq_of_blocked h
  rfl

theorem holdsR_of_taking {c : Call} (h : c.taking) : c.holdsR := by
  unfold Call.taking at h
  split at h <;> first | rfl | exact absurd h Bool.false_ne_true

/-! ## The step of a call -/

section callStep

variable {sh' : MqShared} {c' : Call} {ws : List Nat}

def afterCall (s : Mq) (i : Nat) (sh' : MqShared) (c' : Call) (ws : List Nat) : Mq :=
  { s with sh := sh', calls := Function.update (wakeAll ws s.calls) i c' }

theorem calls_self : (s.afterCall i sh' c' ws).calls i = c' := by
  show Function.update (wakeAll ws s.calls) i c' i = c'
  rw [Function.update_apply, if_pos rfl]

theorem calls_other {j : Nat} (hj : j ≠ i) :
    (s.afterCall i sh' c' ws).calls j = if j ∈ ws then (s.calls j).wake 0 else s.calls j := by
  show Function.update (wakeAll ws s.calls) i c' j = _
  rw [Function.update_apply, if_neg hj]
  rfl

theorem Live.afterCall (h : s.Live) (hs : LiveStep s.sh sh' i (s.calls i) c' ws) :
    (s.afterCall i sh' c' ws).Live where
  indexed := hs.indexed
  nodup := hs.nodup
  exit := hs.yields.exitFlag.trans h.exit
  calls j := by
    by_cases hj : j = i
    · rw [hj, calls_self]
      exact hs.rely
    · rw [calls_other hj]
      split_ifs with hw
      · exact (h.calls j).wake hs.yields hj hw
      · exact (h.calls j).stable hs.yields hj hw
  finite := by
    refine (h.finite.insert i).subset fun j hj => ?_
    by_cases he : j = i
    · exact .inl he
    · refine .inr fun hnone => ?_
      rw [Set.mem_ofPred_eq, calls_other he, hnone] at hj
      exact hj (ite_self _)

theorem mem_signals_other {j : Nat} (hj : j ≠ i) :
    j ∈ (s.afterCall i sh' c' ws).signals ↔ j ∈ s.signals := by
  unfold signals
  rw [Set.mem_ofPred_eq, Set.mem_ofPred_eq, calls_other hj]
  split_ifs
  · rw [pushed_wake]
  · rfl

theorem mem_signals_self : i ∈ (s.afterCall i sh' c' ws).signals ↔ c'.pushed = true := by
  unfold signals
  rw [Set.mem_ofPred_eq, calls_self]

theorem signals_subset (hp : (s.calls i).pushed → c'.pushed) :
    s.signals ⊆ (s.afterCall i sh' c' ws).signals := by
  intro j hm
  by_cases hj : j = i
  · subst hj
    exact mem_signals_self.2 (hp hm)
  · exact (mem_signals_other hj).2 hm

theorem waiting_before (hw : c'.waiting → (s.calls i).waiting) {j : Nat}
    (h : ((s.afterCall i sh' c' ws).calls j).waiting) : (s.calls j).waiting := by
  by_cases hj : j = i
  · rw [hj, calls_self] at h
    exact hj ▸ hw h
  · rw [calls_other hj] at h
    split_ifs at h
    · exact waiting_wake h
    · exact h

variable (h : s.Live) (ho : s.Owed woken) (hy : Yields i s.sh sh' ws)

include h ho hy

theorem mem_retriers_other {j : Nat} (hj : j ≠ i) (hm : j ∈ woken) :
    j ∈ (s.afterCall i sh' c' ws).retriers woken := by
  have hloop := ho.inLoop j hm
  have hw : j ∉ ws := fun hw => not_inLoop ((h.calls j).cond.1 (hy.woken j hw)) hloop
  have hcall : (s.afterCall i sh' c' ws).calls j = s.calls j := by rw [calls_other hj, if_neg hw]
  show ((s.afterCall i sh' c' ws).calls j).retrying ∨ j ∈ woken ∧
    ((s.afterCall i sh' c' ws).calls j).popping
  rw [hcall]
  exact hloop.imp_right fun hp => ⟨hm, hp⟩

theorem subset_retriers
    (hkeep : (s.calls i).retrying ∨ (s.calls i).popping → c'.retrying ∨ c'.popping) :
    woken ⊆ (s.afterCall i sh' c' ws).retriers woken := by
  intro j hm
  by_cases hj : j = i
  · subst hj
    show ((s.afterCall j sh' c' ws).calls j).retrying ∨ j ∈ woken ∧
      ((s.afterCall j sh' c' ws).calls j).popping
    rw [calls_self]
    exact (hkeep (ho.inLoop j hm)).imp_right fun hp => ⟨hm, hp⟩
  · exact mem_retriers_other h ho hy hj hm

end callStep

theorem Live.finite_retriers (h : s.Live) (woken : Set Nat) : (s.retriers woken).Finite := by
  refine h.finite.subset fun i hi hidle => ?_
  rw [retriers, Set.mem_ofPred_eq, hidle] at hi
  exact hi.elim Bool.false_ne_true fun hp => Bool.false_ne_true hp.2

theorem Owed.of_bound (hb : (∃ i, (s.calls i).waiting) →
    s.sh.pending.length ≤ s.signals.ncard + (s.retriers woken).ncard) : s.Owed (s.retriers woken) :=
  ⟨fun _ hm => hm.imp_right And.right, hb⟩

/-- **A step of a call keeps the count.** -/
theorem Owed.afterCall {sh' : MqShared} {c' : Call} {ws : List Nat} (h : s.Live) (ho : s.Owed woken)
    (hs : LiveStep s.sh sh' i (s.calls i) c' ws) :
    (s.afterCall i sh' c' ws).Owed ((s.afterCall i sh' c' ws).retriers woken) := by
  have ht := h.afterCall hs
  have hfs := ht.finite_signals
  have hfw := ht.finite_retriers woken
  have hy := hs.yields
  refine Owed.of_bound fun hw => ?_
  show sh'.pending.length ≤ _
  cases hs.tally with
  | quiet hpend hpushed hwaiting hkeep =>
    have hb := ho.bound (hw.imp fun j hj => waiting_before hwaiting hj)
    have hsig := Set.ncard_le_ncard (signals_subset fun hp => hpushed.trans hp) hfs
    have hret := Set.ncard_le_ncard (subset_retriers h ho hy hkeep) hfw
    omega
  | push hpend hpushed hpushed' hwaiting hkeep =>
    have hb := ho.bound (hw.imp fun j hj => waiting_before (by simp [hwaiting]) hj)
    have hnew : i ∉ s.signals := fun hm => Bool.false_ne_true (hpushed.symm.trans hm)
    have hsig := ncard_lt_of_new hfs (signals_subset fun _ => hpushed') hnew
      (mem_signals_self.2 hpushed')
    have hret := Set.ncard_le_ncard (subset_retriers h ho hy hkeep) hfw
    omega
  | @signal j hpend hj hself hwaiting hkeep =>
    have hb := ho.bound (hw.imp fun k hk => waiting_before (by simp [hwaiting]) hk)
    have hsig := ncard_le_of_except hfs fun k hk hm => (mem_signals_other hk).2 hm
    -- the receiver woken by the signal was blocked, so it was not counted before
    have hblocked := (h.calls j).cond.1 hj
    have hnew : j ∉ woken := fun hm => not_inLoop hblocked (ho.inLoop j hm)
    have hji : j ≠ i := fun he => Bool.false_ne_true (hself.symm.trans (he ▸ hblocked))
    have hmem : j ∈ (s.afterCall i sh' c' [j]).retriers woken := by
      refine Or.inl ?_
      rw [calls_other hji, if_pos (List.mem_singleton_self j)]
      exact retrying_wake hblocked
    have hret := ncard_lt_of_new hfw (subset_retriers h ho hy hkeep) hnew hmem
    omega
  | nobody hcond hholds hwaiting =>
    obtain ⟨j, hj⟩ := hw
    have hji : j ≠ i := fun he => by
      rw [he, calls_self, hwaiting] at hj
      exact Bool.false_ne_true hj
    rw [calls_other hji, if_neg List.not_mem_nil] at hj
    rcases blocked_or_holdsR hj with hb | hr
    · have hmem := (h.calls j).cond.2 hb
      rw [hcond] at hmem
      exact absurd hmem List.not_mem_nil
    · exact absurd ((h.calls j).ownsR hr) (not_held ((h.calls i).ownsR hholds) hji)
  | pop hpend hpushed hwaiting =>
    have hb := ho.bound (hw.imp fun j hj => waiting_before (by simp [hwaiting]) hj)
    have hsig := Set.ncard_le_ncard (signals_subset fun hp => hpushed.trans hp) hfs
    have hret := ncard_le_of_except hfw fun j hj hm => mem_retriers_other h ho hy hj hm
    omega
  | drained hpend => omega

/-! ## Every step -/

theorem fresh_liveStep {sh : MqShared} {c : Call} {msg : Option (List UInt8)} (hf : c.Fresh msg)
    (h : sh.Indexed) (hn : sh.cond.Nodup) (hc : Call.idle.Rely sh i) : LiveStep sh sh i .idle c [] := by
  apply LiveStep.mk h hn
  · cases hf <;> exact ⟨nofun, nofun, nofun, nofun, hc.cond⟩
  · exact .of_eq rfl rfl rfl rfl rfl rfl
  · cases hf <;> exact .quiet rfl rfl nofun nofun

theorem wake_liveStep {sh : MqShared} {timeoutMs : Int} {msg : List UInt8} (h : sh.Indexed)
    (hn : sh.cond.Nodup) (ret : Int) :
    LiveStep sh { sh with cond := sh.cond.erase i } i (.recv .blocked timeoutMs msg)
      (.recv (.relock ret) timeoutMs msg) [] := by
  refine ⟨h.of_eq rfl rfl rfl, hn.erase i, ?_, ?_, .quiet rfl rfl nofun nofun⟩
  · refine ⟨nofun, nofun, nofun, nofun, fun hi => ?_, nofun⟩
    exact absurd rfl (hn.mem_erase_iff.1 hi).1
  · refine ⟨rfl, rfl, fun _ _ h' => h', fun _ _ h' => h', fun _ _ _ => le_rfl, fun _ _ _ => le_rfl, fun j hj => ?_,
      nofun⟩
    show j ∈ sh.cond.erase i ↔ _
    rw [List.mem_erase_of_ne hj]
    exact ⟨fun hm => ⟨hm, List.not_mem_nil⟩, And.left⟩

theorem callStep_liveStep {sh' : MqShared} {c c' : Call} {choice : Option Nat} {ws : List Nat}
    (h : s.Live) (hc : c.Rely s.sh i) (hs : c.step s.sh i choice = some (sh', c', ws)) :
    LiveStep s.sh sh' i c c' ws := by
  unfold Call.step at hs
  cases c with
  | idle => cases hs
  | send pc msg =>
    obtain ⟨⟨sh₁, pc', ws'⟩, hstep, hs⟩ := Option.bind_eq_some_iff.1 hs
    cases hs
    exact sendStep_live h.indexed h.nodup hc hstep
  | recv pc timeoutMs msg =>
    obtain ⟨⟨sh₁, pc', msg'⟩, hstep, hs⟩ := Option.bind_eq_some_iff.1 hs
    cases hs
    exact recvStep_live h.indexed h.nodup h.exit hc hstep

theorem wakeAll_nil (calls : Nat → Call) : wakeAll [] calls = calls := by
  funext j
  exact if_neg List.not_mem_nil

theorem start_live {c : Call} {msg : Option (List UInt8)} (h : s.Live) (hf : c.Fresh msg)
    (hs : s.start i msg c = some s') :
    ∃ i sh' c' ws, LiveStep s.sh sh' i (s.calls i) c' ws ∧ s' = s.afterCall i sh' c' ws := by
  obtain ⟨hidle, -, -, rfl⟩ := start_spec hs
  have hc := h.calls i
  rw [hidle] at hc
  refine ⟨i, s.sh, c, [], ?_, ?_⟩
  · rw [hidle]
    exact fresh_liveStep hf h.indexed h.nodup hc
  · rw [Mq.afterCall, wakeAll_nil]

theorem destroyStep_ne_idle {sh sh' : MqShared} {d d' : DestroyPc} {ws : List Nat}
    (hs : destroyStep sh d = some (sh', d', ws)) : d' ≠ .idle := by
  cases destroyStep_cases hs <;> exact nofun

theorem idle_of_step {l : Label} (hs : s.step l = some s') (hd : s'.destroy = .idle) :
    s.destroy = .idle ∧ l ≠ .callDestroy ∧ l ≠ .destroy := by
  cases l with
  | send i msg msgSize | recv i msg msgSize timeoutMs =>
    obtain ⟨-, hidle, -, -⟩ := start_spec hs
    exact ⟨hidle, nofun, nofun⟩
  | call i choice =>
    obtain ⟨⟨sh', c', ws⟩, -, hs⟩ := Option.bind_eq_some_iff.1 hs
    cases hs
    exact ⟨hd, nofun, nofun⟩
  | wake i ret =>
    obtain ⟨timeoutMs, msg, -, rfl⟩ := wakeUp_spec hs
    exact ⟨hd, nofun, nofun⟩
  | callDestroy =>
    change (if s.destroy = .idle then some { s with destroy := .setExit } else none) = some s' at hs
    split_ifs at hs
    cases hs
    cases hd
  | destroy =>
    obtain ⟨⟨sh', d, ws⟩, hstep, hs⟩ := Option.bind_eq_some_iff.1 hs
    cases hs
    exact absurd hd (destroyStep_ne_idle hstep)

/-- **Every step of a mq that is not destroyed** is a live step of one of its calls. -/
theorem step_live {l : Label} (h : s.Live) (hs : s.step l = some s') (hl : l ≠ .callDestroy)
    (hl' : l ≠ .destroy) :
    ∃ i sh' c' ws, LiveStep s.sh sh' i (s.calls i) c' ws ∧ s' = s.afterCall i sh' c' ws := by
  cases l with
  | send i msg msgSize => exact start_live h (Call.fresh_send msg msgSize) hs
  | recv i msg msgSize timeoutMs => exact start_live h (Call.fresh_recv msg msgSize timeoutMs) hs
  | call i choice =>
    obtain ⟨⟨sh', c', ws⟩, hstep, hs⟩ := Option.bind_eq_some_iff.1 hs
    cases hs
    exact ⟨i, sh', c', ws, callStep_liveStep h (h.calls i) hstep, rfl⟩
  | wake i ret =>
    obtain ⟨timeoutMs, msg, hi, rfl⟩ := wakeUp_spec hs
    refine ⟨i, _, _, [], hi ▸ wake_liveStep h.indexed h.nodup ret, ?_⟩
    rw [Mq.afterCall, wakeAll_nil]
  | callDestroy => exact absurd rfl hl
  | destroy => exact absurd rfl hl'

/-! ## Runs -/

theorem init_live {msgSize msgMax : Nat} {q : LockFreeQueue}
    (hq : osalLockFreeQueueInit msgSize msgMax true = some q) : (init q).Live := by
  unfold osalLockFreeQueueInit at hq
  split_ifs at hq
  cases hq
  refine ⟨⟨le_rfl, rfl, rfl, ?_⟩, List.nodup_nil, rfl, fun i => ?_, ?_⟩
  · show 0 < LockFreeQueue.period _
    unfold LockFreeQueue.period
    split_ifs with h0
    · exact Nat.one_pos
    · apply Function.minimalPeriod_pos_of_mem_periodicPts
      exact zero_mem_periodicPts_hop _ (by decide) (Nat.pos_of_ne_zero h0)
  · exact ⟨nofun, nofun, nofun, nofun, nofun, nofun⟩
  · convert Set.finite_empty (α := Nat)
    ext i
    exact ⟨fun hi => hi rfl, nofun⟩

theorem init_owed (q : LockFreeQueue) : (init q).Owed ∅ := by
  refine ⟨nofun, fun ⟨i, hi⟩ => ?_⟩
  exact absurd hi Bool.false_ne_true

theorem WakeRun.live {msgSize msgMax : Nat} {q : LockFreeQueue}
    (hq : osalLockFreeQueueInit msgSize msgMax true = some q) (h : WakeRun q s woken)
    (hd : s.destroy = .idle) : s.Live ∧ s.Owed woken := by
  induction h with
  | init => exact ⟨init_live hq, init_owed q⟩
  | step _ hs ih =>
    obtain ⟨hidle, hl, hl'⟩ := idle_of_step hs hd
    obtain ⟨hlive, howed⟩ := ih hidle
    obtain ⟨i, sh', c', ws, hstep, rfl⟩ := step_live hlive hs hl hl'
    exact ⟨hlive.afterCall hstep, howed.afterCall hlive hstep⟩

theorem WakeRun.run {q : LockFreeQueue} {ls : List Label} : ∀ {s s' : Mq} {woken : Set Nat},
    WakeRun q s woken → Mq.run ls s = some s' → ∃ woken', WakeRun q s' woken' := by
  induction ls with
  | nil => intro s s' woken h hrun; cases hrun; exact ⟨woken, h⟩
  | cons l ls ih =>
    intro s s' woken h hrun
    obtain ⟨s₁, hs, hrun⟩ := Option.bind_eq_some_iff.1 hrun
    exact ih (h.step hs) hrun

theorem subsingleton_takers (h : s.Live) : s.takers.Subsingleton := by
  intro i hi j hj
  have hr := (h.calls i).ownsR (holdsR_of_taking hi)
  by_contra hne
  exact not_held hr (Ne.symm hne) ((h.calls j).ownsR (holdsR_of_taking hj))

/-- **No wake-up is lost**: while a receiver sleeps on a mq that is not destroyed, every message in
the queue has a signal still to come or a woken receiver on its way to it. -/
theorem WakeRun.owed {msgSize msgMax : Nat} {q : LockFreeQueue}
    (hq : osalLockFreeQueueInit msgSize msgMax true = some q) (h : WakeRun q s woken)
    (hd : s.destroy = .idle) (hb : (s.calls i).blocked) : s.NoneLost woken := by
  obtain ⟨hlive, howed⟩ := h.live hq hd
  have hfs := hlive.finite_signals
  have hfw := hlive.finite_woken howed
  have hwait : (s.calls i).waiting := waiting_of_blocked hb
  have hbound := howed.bound ⟨i, hwait⟩
  have htakers := subsingleton_takers hlive
  refine ⟨hfs, hfw, howed.inLoop, hbound, htakers, ?_, fun hne => ?_⟩
  · have hsub : woken ⊆ woken \ s.takers ∪ s.takers := Set.subset_sdiff_union woken s.takers
    have hcard := Set.ncard_le_ncard hsub (hfw.sdiff.union htakers.finite)
    have hunion := Set.ncard_union_le (woken \ s.takers) s.takers
    omega
  · have hpos := List.length_pos_iff.2 hne
    by_contra hnone
    have hs0 : s.signals = ∅ := Set.eq_empty_iff_forall_notMem.2 fun j hj => hnone ⟨j, .inl hj⟩
    have hw0 : woken = ∅ := Set.eq_empty_iff_forall_notMem.2 fun j hj => hnone ⟨j, .inr hj⟩
    rw [hs0, hw0, Set.ncard_empty] at hbound
    omega

/-- A receiver is blocked and a sender has put its message into the queue. -/
theorem WakeRun.owed_pushed : ∃ q s woken, osalLockFreeQueueInit 1 2 true = some q ∧
    Mq.run [.recv 1 (some [0]) 1 OSAL_WAITFOREVER, .call 1 none, .call 1 none, .call 1 none,
      .send 0 (some [7]) 1, .call 0 none, .call 0 none, .call 0 none, .call 0 none, .call 0 none]
      (Mq.init q) = some s ∧ s.sh.pending = [[7]] ∧ s.NoneLost woken := by
  obtain ⟨q, s, hq, hs, hd, hb, hp⟩ : ∃ q s, osalLockFreeQueueInit 1 2 true = some q ∧
      Mq.run [.recv 1 (some [0]) 1 OSAL_WAITFOREVER, .call 1 none, .call 1 none, .call 1 none,
        .send 0 (some [7]) 1, .call 0 none, .call 0 none, .call 0 none, .call 0 none, .call 0 none]
        (Mq.init q) = some s ∧ s.destroy = .idle ∧ (s.calls 1).blocked ∧ s.sh.pending = [[7]] :=
    ⟨_, _, rfl, rfl, rfl, rfl, rfl⟩
  obtain ⟨woken, h⟩ := WakeRun.init.run hs
  exact ⟨q, s, woken, hq, hs, hp, h.owed hq hd hb⟩

end Mq

end FwkMlib.Osal
