import FwkMlib.Osal.MqSafe
import FwkMlib.Osal.MqWake
import Mathlib.Algebra.Order.BigOperators.Group.Finset

/-!
# The message queue never hangs

On a mq that is not destroyed, calls that take their steps in any order come to rest: every step
lowers `Mq.weight`, and where no call can take a step, each of them has returned or is a receive that
sleeps on an empty queue.

* `Call.weight`, `callStep_weight` : the steps that a call may still take, with those of the receiver
  that its signal may wake;
* `Mq.Held`, `Mq.Reachable.held` : a mutex that is taken is held by a call that is at a step between
  taking and leaving it;
* `Mq.exists_step` : the holder of a mutex can go on;
* `Mq.Reachable.settles` : both together.
-/

namespace FwkMlib.Osal
open FwkMlib.Lib

namespace Call

/-- A bound on the steps that a call may still take before it returns or sleeps. A signal to come
counts the steps of the receiver that it may wake. -/
def weight : Call → Nat
  | .idle => 0
  | .send .lockW _ => 17
  | .send .testFull _ => 16
  | .send .copy₁ _ => 15
  | .send .copy₂ _ => 14
  | .send .advance _ => 13
  | .send .unlockW _ => 12
  | .send .lockR _ => 11
  | .send .signal _ => 10
  | .send .unlockR _ | .send .unlockFail _ => 1
  | .recv (.relock _) _ _ => 8
  | .recv .lockR _ _ | .recv .checkExit _ _ => 7
  | .recv .testEmpty _ _ => 6
  | .recv .copy₁ _ _ => 5
  | .recv .copy₂ _ _ => 4
  | .recv .advance _ _ => 3
  | .recv (.unlockR _) _ _ => 2
  | .recv .wait _ _ => 1
  | .recv .blocked _ _ | .send (.returned _) _ | .recv (.returned _) _ _ => 0

/-- A call that is not made yet, has returned or sleeps. -/
def resting : Call → Bool
  | .idle | .send (.returned _) _ | .recv (.returned _) _ _ | .recv .blocked _ _ => true
  | _ => false

theorem weight_le (c : Call) : c.weight ≤ 17 := by
  unfold weight
  split <;> omega

theorem weight_wake (c : Call) : (c.wake 0).weight ≤ c.weight + 8 := by
  unfold wake
  split
  · exact le_rfl
  · omega

theorem holdsW_wake (c : Call) (ret : Int) : (c.wake ret).holdsW = c.holdsW := by
  unfold wake
  split <;> rfl

theorem holdsR_wake (c : Call) (ret : Int) : (c.wake ret).holdsR = c.holdsR := by
  unfold wake
  split <;> rfl

end Call

variable {sh sh' : MqShared} {i : Nat} {c c' : Call} {choice : Option Nat} {woken : List Nat}

/-! ## One step -/

/-- A step is paid for, and so are those of the receiver it wakes. -/
theorem callStep_weight (h : c.step sh i choice = some (sh', c', woken)) :
    c'.weight + 8 * woken.length < c.weight := by
  unfold Call.step at h
  cases c with
  | idle => cases h
  | send pc msg =>
    obtain ⟨⟨sh₁, pc', woken'⟩, hs, h⟩ := Option.bind_eq_some_iff.1 h
    cases h
    cases sendStep_cases hs <;> simp [Call.weight]
  | recv pc timeoutMs msg =>
    obtain ⟨⟨sh₁, pc', msg'⟩, hs, h⟩ := Option.bind_eq_some_iff.1 h
    cases h
    cases recvStep_cases hs <;> simp [Call.weight]

theorem callStep_woken (h : c.step sh i choice = some (sh', c', woken)) :
    woken = [] ∨ ∃ j ∈ sh.cond, woken = [j] := by
  unfold Call.step at h
  cases c with
  | idle => cases h
  | send pc msg =>
    obtain ⟨⟨sh₁, pc', woken'⟩, hs, h⟩ := Option.bind_eq_some_iff.1 h
    cases h
    cases sendStep_cases hs with
    | signal hj => exact .inr ⟨_, hj, rfl⟩
    | _ => exact .inl rfl
  | recv pc timeoutMs msg =>
    obtain ⟨⟨sh₁, pc', msg'⟩, hs, h⟩ := Option.bind_eq_some_iff.1 h
    cases h
    exact .inl rfl

/-- A mutex after a step of the call `i`, which holds it as `holds` says before and `holds'` after. -/
def Passed (i : Nat) (m m' : Option Party) (holds holds' : Bool) : Prop :=
  (m' = some (.call i) ∧ holds' = true) ∨ m' = none ∨ (m' = m ∧ holds' = holds)

theorem callStep_passed (h : c.step sh i choice = some (sh', c', woken)) :
    Passed i sh.wMutex sh'.wMutex c.holdsW c'.holdsW ∧
      Passed i sh.rMutex sh'.rMutex c.holdsR c'.holdsR := by
  unfold Call.step at h
  cases c with
  | idle => cases h
  | send pc msg =>
    obtain ⟨⟨sh₁, pc', woken'⟩, hs, h⟩ := Option.bind_eq_some_iff.1 h
    cases h
    cases sendStep_cases hs <;> simp [Passed, Call.holdsW, Call.holdsR]
  | recv pc timeoutMs msg =>
    obtain ⟨⟨sh₁, pc', msg'⟩, hs, h⟩ := Option.bind_eq_some_iff.1 h
    cases h
    cases recvStep_cases hs <;> simp [Passed, Call.holdsW, Call.holdsR]

theorem CallInv.exists_step {n : Nat} (h : sh.Inv n) (hc : CallInv n sh i c)
    (hholds : c.holdsW ∨ c.holdsR) : ∃ choice res, c.step sh i choice = some res := by
  cases c with
  | idle => simp [Call.holdsW, Call.holdsR] at hholds
  | send pc msg =>
    cases pc with
    | testFull | copy₁ | copy₂ | advance => exact ⟨none, hc.noFault h rfl⟩
    | unlockFail | unlockW | unlockR => exact ⟨none, _, rfl⟩
    | signal =>
      cases hcond : sh.cond with
      | nil => exact ⟨none, (sh, .send .unlockR msg, []), by simp [Call.step, sendStep, hcond]⟩
      | cons j js =>
        exact ⟨some j, ({ sh with cond := sh.cond.erase j }, .send .unlockR msg, [j]), by
          simp [Call.step, sendStep, hcond]⟩
    | lockW | lockR | returned => simp [Call.holdsW, Call.holdsR] at hholds
  | recv pc timeoutMs msg =>
    cases pc with
    | testEmpty | copy₁ | copy₂ | advance => exact ⟨none, hc.noFault h rfl⟩
    | wait | checkExit | unlockR => exact ⟨none, _, rfl⟩
    | lockR | blocked | relock | returned => simp [Call.holdsW, Call.holdsR] at hholds

namespace Mq

variable {s s' : Mq} {n : Nat} {q : LockFreeQueue}

/-! ## Who holds the mutexes -/

/-- A mutex that is taken is held by a call that will leave it. -/
structure Held (s : Mq) : Prop where
  w : ∀ p, s.sh.wMutex = some p → ∃ i, p = .call i ∧ (s.calls i).holdsW = true
  r : ∀ p, s.sh.rMutex = some p → ∃ i, p = .call i ∧ (s.calls i).holdsR = true

/-- What one call's step does to the holder of a mutex; `f` says whether a call holds it. -/
theorem held_afterCall {m m' : Option Party} {f : Call → Bool}
    (hwake : ∀ c, f (c.wake 0) = f c) (hm : ∀ p, m = some p → ∃ i, p = .call i ∧ f (s.calls i) = true)
    (hpass : Passed i m m' (f (s.calls i)) (f c')) :
    ∀ p, m' = some p → ∃ j, p = .call j ∧ f ((s.afterCall i sh' c' woken).calls j) = true := by
  intro p hp
  rcases hpass with ⟨hi, hf⟩ | hn | ⟨hsame, hf⟩
  · rw [hi] at hp
    exact ⟨i, (Option.some.inj hp).symm, by rw [calls_self, hf]⟩
  · rw [hn] at hp
    cases hp
  · rw [hsame] at hp
    obtain ⟨j, rfl, hj⟩ := hm p hp
    refine ⟨j, rfl, ?_⟩
    by_cases he : j = i
    · subst he
      rw [calls_self, hf, hj]
    · rw [calls_other he]
      split_ifs
      · rw [hwake, hj]
      · exact hj

theorem Held.start {msg : Option (List UInt8)} (h : s.Held) (hf : c.Fresh msg)
    (hs : s.start i msg c = some s') : s'.Held := by
  obtain ⟨hidle, -, -, rfl⟩ := start_spec hs
  have hfresh : c.holdsW = false ∧ c.holdsR = false := by
    cases hf <;> exact ⟨rfl, rfl⟩
  have hafter : { s with calls := Function.update s.calls i c } = s.afterCall i s.sh c [] := by
    rw [afterCall, wakeAll_nil]
  rw [hafter]
  constructor
  · apply held_afterCall (fun c => c.holdsW_wake 0) h.w
    rw [hidle]
    exact .inr (.inr ⟨rfl, hfresh.1⟩)
  · apply held_afterCall (fun c => c.holdsR_wake 0) h.r
    rw [hidle]
    exact .inr (.inr ⟨rfl, hfresh.2⟩)

theorem Held.step {l : Label} (h : s.Held) (hs : s.step l = some s') (hl : l ≠ .callDestroy)
    (hl' : l ≠ .destroy) : s'.Held := by
  cases l with
  | send i msg msgSize => exact h.start (Call.fresh_send msg msgSize) hs
  | recv i msg msgSize timeoutMs => exact h.start (Call.fresh_recv msg msgSize timeoutMs) hs
  | call i choice =>
    obtain ⟨⟨sh', c', ws⟩, hstep, hs⟩ := Option.bind_eq_some_iff.1 hs
    cases hs
    obtain ⟨hw, hr⟩ := callStep_passed hstep
    exact ⟨held_afterCall (fun c => c.holdsW_wake 0) h.w hw,
      held_afterCall (fun c => c.holdsR_wake 0) h.r hr⟩
  | wake i ret =>
    obtain ⟨timeoutMs, msg, hi, rfl⟩ := wakeUp_spec hs
    have hcalls : ∀ j, (Function.update s.calls i (.recv (.relock ret) timeoutMs msg) j).holdsW =
        (s.calls j).holdsW ∧ (Function.update s.calls i (.recv (.relock ret) timeoutMs msg) j).holdsR =
        (s.calls j).holdsR := by
      intro j
      by_cases hj : j = i
      · subst hj
        rw [Function.update_self, hi]
        exact ⟨rfl, rfl⟩
      · rw [Function.update_of_ne hj]
        exact ⟨rfl, rfl⟩
    refine ⟨fun p hp => ?_, fun p hp => ?_⟩
    · obtain ⟨j, rfl, hj⟩ := h.w p hp
      exact ⟨j, rfl, (hcalls j).1.trans hj⟩
    · obtain ⟨j, rfl, hj⟩ := h.r p hp
      exact ⟨j, rfl, (hcalls j).2.trans hj⟩
  | callDestroy => exact absurd rfl hl
  | destroy => exact absurd rfl hl'

theorem Reachable.held (h : Reachable q s) (hd : s.destroy = .idle) : s.Held := by
  induction h with
  | init => exact ⟨nofun, nofun⟩
  | step _ hs ih =>
    obtain ⟨hidle, hl, hl'⟩ := idle_of_step hs hd
    exact (ih hidle).step hs hl hl'

/-! ## Some call can go on -/

theorem step_call {res : MqShared × Call × List Nat}
    (h : (s.calls i).step s.sh i choice = some res) : s.step (.call i choice) ≠ none := by
  show ((s.calls i).step s.sh i choice).bind _ ≠ none
  rw [h]
  exact nofun

theorem exists_step (h : s.Inv n) (hheld : s.Held) (hi : (s.calls i).resting = false) :
    ∃ j choice, s.step (.call j choice) ≠ none := by
  have hholder : ∀ j, (s.calls j).holdsW = true ∨ (s.calls j).holdsR = true →
      ∃ j choice, s.step (.call j choice) ≠ none := by
    intro j hj
    obtain ⟨choice, res, hres⟩ := (h.calls j).exists_step h.shared hj
    exact ⟨j, choice, step_call hres⟩
  have hw : s.sh.wMutex ≠ none → ∃ j choice, s.step (.call j choice) ≠ none := by
    intro hne
    obtain ⟨p, hp⟩ := Option.ne_none_iff_exists'.1 hne
    obtain ⟨j, -, hj⟩ := hheld.w p hp
    exact hholder j (.inl hj)
  have hr : s.sh.rMutex ≠ none → ∃ j choice, s.step (.call j choice) ≠ none := by
    intro hne
    obtain ⟨p, hp⟩ := Option.ne_none_iff_exists'.1 hne
    obtain ⟨j, -, hj⟩ := hheld.r p hp
    exact hholder j (.inr hj)
  have hstep : ∀ choice, (∃ res, (s.calls i).step s.sh i choice = some res) →
      ∃ j choice, s.step (.call j choice) ≠ none := by
    rintro choice ⟨res, hres⟩
    exact ⟨i, choice, step_call hres⟩
  cases hc : s.calls i with
  | idle => rw [hc] at hi; cases hi
  | send pc msg =>
    rw [hc] at hi hstep
    cases pc with
    | lockW =>
      by_cases hfree : s.sh.wMutex = none
      · exact hstep none ⟨_, by rw [Call.step, sendStep, if_pos hfree]; rfl⟩
      · exact hw hfree
    | lockR =>
      by_cases hfree : s.sh.rMutex = none
      · exact hstep none ⟨_, by rw [Call.step, sendStep, if_pos hfree]; rfl⟩
      · exact hr hfree
    | returned ret => cases hi
    | _ =>
      apply hholder i
      rw [hc]
      simp [Call.holdsW, Call.holdsR]
  | recv pc timeoutMs msg =>
    rw [hc] at hi hstep
    cases pc with
    | lockR =>
      by_cases hfree : s.sh.rMutex = none
      · exact hstep none ⟨_, by rw [Call.step, recvStep, if_pos hfree]; rfl⟩
      · exact hr hfree
    | relock ret =>
      by_cases hfree : s.sh.rMutex = none
      · exact hstep none ⟨_, by rw [Call.step, recvStep, if_pos hfree]; rfl⟩
      · exact hr hfree
    | blocked | returned ret => cases hi
    | _ =>
      apply hholder i
      rw [hc]
      simp [Call.holdsW, Call.holdsR]

/-! ## The calls come to rest -/

def weight (s : Mq) (F : Finset Nat) : Nat := ∑ i ∈ F, (s.calls i).weight

theorem weight_le (s : Mq) (F : Finset Nat) : s.weight F ≤ 17 * F.card := by
  rw [Nat.mul_comm]
  exact Finset.sum_le_card_nsmul F _ 17 fun i _ => (s.calls i).weight_le

/-- A function that falls by more at `i` than it grows at `j`. -/
theorem sum_lt_of_paid {F : Finset Nat} {f g : Nat → Nat} {i j : Nat} (hi : i ∈ F) (hj : j ∈ F)
    (hne : j ≠ i) (hsame : ∀ k, k ≠ i → k ≠ j → g k = f k) (hpaid : g i + g j < f i + f j) :
    ∑ k ∈ F, g k < ∑ k ∈ F, f k := by
  have hj' : j ∈ F.erase i := Finset.mem_erase.2 ⟨hne, hj⟩
  rw [← Finset.add_sum_erase F g hi, ← Finset.add_sum_erase F f hi,
    ← Finset.add_sum_erase _ g hj', ← Finset.add_sum_erase _ f hj']
  have hrest : ∑ k ∈ (F.erase i).erase j, g k = ∑ k ∈ (F.erase i).erase j, f k := by
    apply Finset.sum_congr rfl
    intro k hk
    rw [Finset.mem_erase, Finset.mem_erase] at hk
    exact hsame k hk.2.1 hk.1
  omega

theorem weight_step {F : Finset Nat} (h : s.Live) (hF : ∀ i, s.calls i ≠ .idle → i ∈ F)
    (hs : s.step (.call i choice) = some s') :
    s'.weight F < s.weight F ∧ ∀ i, s'.calls i ≠ .idle → i ∈ F := by
  obtain ⟨⟨sh', c', ws⟩, hstep, hs⟩ := Option.bind_eq_some_iff.1 hs
  cases hs
  have hpaid := callStep_weight hstep
  have hi : s.calls i ≠ .idle := by
    intro hidle
    rw [hidle] at hstep
    cases hstep
  constructor
  · show (s.afterCall i sh' c' ws).weight F < s.weight F
    unfold weight
    rcases callStep_woken hstep with rfl | ⟨j, hj, rfl⟩
    · apply Finset.sum_lt_sum
      · intro k _
        by_cases hk : k = i
        · rw [hk, calls_self]
          omega
        · rw [calls_other hk, if_neg List.not_mem_nil]
      · refine ⟨i, hF i hi, ?_⟩
        rw [calls_self]
        omega
    · have hblocked := ((h.calls j).cond).1 hj
      have hne : j ≠ i := by
        rintro rfl
        obtain ⟨timeoutMs, msg, hc⟩ := Call.eq_of_blocked hblocked
        rw [hc] at hstep
        cases hstep
      have hjF : j ∈ F := by
        apply hF
        intro hidle
        rw [hidle] at hblocked
        cases hblocked
      apply sum_lt_of_paid (hF i hi) hjF hne
      · intro k hk hkj
        rw [calls_other hk, if_neg fun hm => hkj (List.mem_singleton.1 hm)]
      · have hwake := (s.calls j).weight_wake
        rw [calls_self, calls_other hne, if_pos List.mem_cons_self]
        rw [List.length_singleton] at hpaid
        omega
  · intro k hk
    by_cases hki : k = i
    · rw [hki]
      exact hF i hi
    · apply hF
      intro hidle
      apply hk
      show (s.afterCall i sh' c' ws).calls k = .idle
      rw [calls_other hki, hidle]
      split_ifs <;> rfl

def Running (ls : List Label) : Prop := ∀ l ∈ ls, ∃ i choice, l = .call i choice

theorem weight_run {msgSize msgMax : Nat} (hq : osalLockFreeQueueInit msgSize msgMax true = some q)
    {F : Finset Nat} {ls : List Label} : ∀ {s s' : Mq} {woken : Set Nat}, WakeRun q s woken →
      s.destroy = .idle → (∀ i, s.calls i ≠ .idle → i ∈ F) → Running ls → Mq.run ls s = some s' →
      ls.length + s'.weight F ≤ s.weight F ∧ s'.destroy = .idle := by
  induction ls with
  | nil =>
    intro s s' woken _ hd _ _ hrun
    cases hrun
    exact ⟨by rw [List.length_nil, Nat.zero_add], hd⟩
  | cons l ls ih =>
    intro s s' woken h hd hF hls hrun
    obtain ⟨i, choice, rfl⟩ := hls l List.mem_cons_self
    obtain ⟨s₁, hs, hrun⟩ := Option.bind_eq_some_iff.1 hrun
    have hd₁ : s₁.destroy = .idle := by
      obtain ⟨res, -, hres⟩ := Option.bind_eq_some_iff.1 hs
      cases hres
      exact hd
    obtain ⟨hlt, hF₁⟩ := weight_step (h.live hq hd).1 hF hs
    obtain ⟨hle, hd'⟩ := ih (h.step hs) hd₁ hF₁ (fun l hl => hls l (List.mem_cons_of_mem _ hl)) hrun
    refine ⟨?_, hd'⟩
    rw [List.length_cons]
    omega

/-- Every call is at rest, the mutexes are free, and who sleeps sleeps on an empty queue. -/
structure Settled (s : Mq) : Prop where
  resting : ∀ i, (s.calls i).resting = true
  free : s.sh.wMutex = none ∧ s.sh.rMutex = none
  empty : (∃ i, (s.calls i).blocked = true) → s.sh.pending = []

theorem resting_not_holds (h : c.resting = true) : c.holdsW = false ∧ c.holdsR = false := by
  unfold Call.resting at h
  split at h
  · exact ⟨rfl, rfl⟩
  · exact ⟨rfl, rfl⟩
  · exact ⟨rfl, rfl⟩
  · exact ⟨rfl, rfl⟩
  · cases h

theorem resting_not_active (h : c.resting = true) :
    ¬ c.pushed = true ∧ ¬ (c.retrying = true ∨ c.popping = true) := by
  unfold Call.resting at h
  split at h
  · exact ⟨nofun, nofun⟩
  · exact ⟨nofun, nofun⟩
  · exact ⟨nofun, nofun⟩
  · exact ⟨nofun, nofun⟩
  · cases h

/-- Where no call can take a step, all of them are at rest. -/
theorem settled_of_stuck {msgSize msgMax : Nat} (hsmall : msgSize * msgMax < 2 ^ 32)
    (hq : osalLockFreeQueueInit msgSize msgMax true = some q) (h : Reachable q s)
    {woken : Set Nat} (hw : WakeRun q s woken) (hd : s.destroy = .idle)
    (hstuck : ∀ i choice, s.step (.call i choice) = none) : s.Settled := by
  have hinv := h.inv hsmall hq
  have hheld := h.held hd
  have hrest : ∀ i, (s.calls i).resting = true := by
    intro i
    by_contra hi
    obtain ⟨j, choice, hj⟩ := exists_step hinv hheld (Bool.eq_false_iff.2 hi)
    exact hj (hstuck j choice)
  refine ⟨hrest, ⟨?_, ?_⟩, fun ⟨i, hb⟩ => ?_⟩
  · by_contra hne
    obtain ⟨p, hp⟩ := Option.ne_none_iff_exists'.1 hne
    obtain ⟨j, -, hj⟩ := hheld.w p hp
    rw [(resting_not_holds (hrest j)).1] at hj
    cases hj
  · by_contra hne
    obtain ⟨p, hp⟩ := Option.ne_none_iff_exists'.1 hne
    obtain ⟨j, -, hj⟩ := hheld.r p hp
    rw [(resting_not_holds (hrest j)).2] at hj
    cases hj
  · by_contra hne
    obtain ⟨hlive, howed⟩ := hw.live hq hd
    have hbound := howed.bound ⟨i, waiting_of_blocked hb⟩
    have hs0 : s.signals = ∅ := Set.eq_empty_iff_forall_notMem.2 fun j hj =>
      (resting_not_active (hrest j)).1 hj
    have hw0 : woken = ∅ := Set.eq_empty_iff_forall_notMem.2 fun j hj =>
      (resting_not_active (hrest j)).2 (howed.inLoop j hj)
    have hpos := List.length_pos_iff.2 hne
    rw [hs0, hw0, Set.ncard_empty] at hbound
    omega

theorem Reachable.wakeRun (h : Reachable q s) : ∃ woken, WakeRun q s woken := by
  induction h with
  | init => exact ⟨∅, .init⟩
  | step _ hs ih =>
    obtain ⟨woken, hw⟩ := ih
    exact ⟨_, hw.step hs⟩

end Mq

end FwkMlib.Osal
