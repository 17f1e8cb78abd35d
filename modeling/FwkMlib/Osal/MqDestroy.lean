import FwkMlib.Osal.MqLocks

/-!
# Destroying a message queue with receivers inside

`osal_posix_mq_destroy` sets `exit_flag` and wakes the receivers, but it does not wait until they have
left. `Mq.QuietReachable.destroySafe` : no receiver uses a part that is gone, and none is left blocked,
in every run in which destroy

* frees the raw queue when no receiver still has to lock `r_mutex` for the first time,
* destroys `r_mutex` when no receiver is about to lock it, waits with it or holds it.
-/

namespace FwkMlib.Osal
open FwkMlib.Lib

def Call.uses : Call → List Part
  | .recv pc _ _ => pc.uses
  | _ => []

namespace Mq

/-- No receiver takes a step on a part that is gone, and none is left blocked. -/
structure DestroySafe (s : Mq) : Prop where
  alive : ∀ i choice s', s.step (.call i choice) = some s' →
    ∀ part ∈ (s.calls i).uses, part ∉ s.destroy.gone
  unblocked : s.destroy = .returned → ∀ i timeoutMs msg, s.calls i ≠ .recv .blocked timeoutMs msg

def AllReturned (s : Mq) : Prop :=
  ∀ i pc timeoutMs msg, s.calls i = .recv pc timeoutMs msg → ∃ ret, pc = .returned ret

/-- Destroy may take its next step. -/
structure Quiet (s : Mq) : Prop where
  deinit : s.destroy = .deinit → ∀ i timeoutMs msg, s.calls i ≠ .recv .lockR timeoutMs msg
  destroyR : s.destroy = .destroyR → s.AllReturned

/-- The states reached by runs in which every step of destroy is taken in a quiet state. -/
inductive QuietReachable (q : LockFreeQueue) : Mq → Prop
  | init : QuietReachable q (init q)
  | step {s s' : Mq} {l : Label} (h : QuietReachable q s) (hl : l = .destroy → s.Quiet)
      (hs : s.step l = some s') : QuietReachable q s'

theorem QuietReachable.reachable {q : LockFreeQueue} {s : Mq} (h : QuietReachable q s) :
    Reachable q s := by
  induction h with
  | init => exact .init
  | step _ _ hs ih => exact ih.step hs

end Mq

/-! ## Where receivers may still be -/

theorem DestroyPc.rawQueue_of_rMutex {d : DestroyPc} (h : .rMutex ∈ d.gone) : .rawQueue ∈ d.gone := by
  cases d <;> simp [gone] at h ⊢

theorem DestroyPc.rawQueue_of_cond {d : DestroyPc} (h : .cond ∈ d.gone) : .rawQueue ∈ d.gone := by
  cases d <;> simp [gone] at h ⊢

theorem DestroyPc.rMutex_of_mq {d : DestroyPc} (h : .mq ∈ d.gone) : .rMutex ∈ d.gone := by
  cases d <;> simp [gone] at h ⊢

/-- A receiver at this step is harmless: in the loop as long as the raw queue is there, behind it as
long as `r_mutex` is. -/
def RecvPc.MayRemain (d : DestroyPc) : RecvPc → Prop
  | .lockR | .testEmpty | .copy₁ | .copy₂ | .advance | .wait => .rawQueue ∉ d.gone
  | .blocked | .relock _ | .checkExit | .unlockR _ => .rMutex ∉ d.gone
  | .returned _ => True

variable {d : DestroyPc} {pc : RecvPc}

theorem RecvPc.MayRemain.alive (h : pc.MayRemain d) : ∀ part ∈ pc.uses, part ∉ d.gone := by
  intro part hpart
  cases pc with
  | lockR =>
    obtain rfl := List.mem_singleton.1 hpart
    exact fun hm => h (DestroyPc.rawQueue_of_rMutex hm)
  | wait =>
    rcases List.mem_pair.1 hpart with rfl | rfl
    · exact fun hm => h (DestroyPc.rawQueue_of_rMutex hm)
    · exact fun hm => h (DestroyPc.rawQueue_of_cond hm)
  | checkExit =>
    obtain rfl := List.mem_singleton.1 hpart
    exact fun hm => h (DestroyPc.rMutex_of_mq hm)
  | testEmpty | copy₁ | copy₂ | advance | relock ret | unlockR ret =>
    obtain rfl := List.mem_singleton.1 hpart
    exact h
  | blocked | returned ret => cases hpart

/-- A step of a receiver keeps it harmless: with the raw queue gone it leaves at the flag. -/
theorem RecvPc.MayRemain.step {sh sh' : MqShared} {i : Nat} {timeoutMs : Int} {msg msg' : List UInt8}
    {pc' : RecvPc} (h : pc.MayRemain d) (hexit : .rawQueue ∈ d.gone → sh.exitFlag = true)
    (hs : recvStep sh i timeoutMs msg pc = some (sh', pc', msg')) :
    pc'.MayRemain d ∧ sh'.exitFlag = sh.exitFlag := by
  cases recvStep_cases hs with
  | lockR hfree => exact ⟨h, rfl⟩
  | noWait hempty h0 => exact ⟨fun hm => h (DestroyPc.rawQueue_of_rMutex hm), rfl⟩
  | mustWait hempty h0 | found hempty => exact ⟨h, rfl⟩
  | copy₁ hcopy | copy₂ hcopy => exact ⟨h, rfl⟩
  | advance hadv => exact ⟨fun hm => h (DestroyPc.rawQueue_of_rMutex hm), rfl⟩
  | wait => exact ⟨fun hm => h (DestroyPc.rawQueue_of_rMutex hm), rfl⟩
  | late hfree | woken hfree hret => exact ⟨h, rfl⟩
  | exit hflag => exact ⟨h, rfl⟩
  | again hflag => exact ⟨fun hm => Bool.false_ne_true (hflag.symm.trans (hexit hm)), rfl⟩
  | unlockR ret => exact ⟨trivial, rfl⟩

theorem RecvPc.mayRemain_of_nil (h : d.gone = []) (pc : RecvPc) : pc.MayRemain d := by
  cases pc <;> simp [MayRemain, h]

namespace Mq

def Remain (calls : Nat → Call) (d : DestroyPc) : Prop :=
  ∀ i pc timeoutMs msg, calls i = .recv pc timeoutMs msg → pc.MayRemain d

theorem Remain.wakeAll {calls : Nat → Call} (h : Remain calls d) (woken : List Nat) :
    Remain (wakeAll woken calls) d := by
  intro i pc timeoutMs msg hi
  unfold Mq.wakeAll at hi
  split_ifs at hi with hw
  · unfold Call.wake at hi
    split at hi
    · next t m hc =>
      cases hi
      exact h i .blocked timeoutMs msg hc
    · exact h i pc timeoutMs msg hi
  · exact h i pc timeoutMs msg hi

theorem Remain.update {calls : Nat → Call} (h : Remain calls d) {i : Nat} {c : Call}
    (hc : ∀ pc timeoutMs msg, c = .recv pc timeoutMs msg → pc.MayRemain d) :
    Remain (Function.update calls i c) d := by
  intro j pc timeoutMs msg hj
  rw [Function.update_apply] at hj
  split_ifs at hj
  · exact hc pc timeoutMs msg hj
  · exact h j pc timeoutMs msg hj

/-- Every receiver is harmless, and will find `exit_flag` set once it is. -/
structure Late (s : Mq) : Prop where
  exit : s.destroy ≠ .idle → s.destroy ≠ .setExit → s.sh.exitFlag = true
  remain : Remain s.calls s.destroy

theorem Late.of_nil {s : Mq} (hexit : s.destroy ≠ .idle → s.destroy ≠ .setExit → s.sh.exitFlag = true)
    (h : s.destroy.gone = []) : s.Late :=
  ⟨hexit, fun _ pc _ _ _ => pc.mayRemain_of_nil h⟩

theorem Late.start {s s' : Mq} {i : Nat} {msg : Option (List UInt8)} {c : Call}
    (hs : s.start i msg c = some s') : s'.Late := by
  obtain ⟨-, hd, -, rfl⟩ := start_spec hs
  exact Late.of_nil (fun h => absurd hd h) (by simp [hd, DestroyPc.gone])

theorem Late.callStep {s s' : Mq} (h : s.Late) {i : Nat} {choice : Option Nat}
    (hs : s.step (.call i choice) = some s') : s'.Late := by
  obtain ⟨⟨sh', c', woken⟩, hc, hs⟩ := Option.bind_eq_some_iff.1 hs
  cases hs
  unfold Call.step at hc
  cases hi : s.calls i with
  | idle => rw [hi] at hc; cases hc
  | send pc msg =>
    rw [hi] at hc
    obtain ⟨⟨sh₁, pc', woken'⟩, hstep, hc⟩ := Option.bind_eq_some_iff.1 hc
    cases hc
    have hflag : sh'.exitFlag = s.sh.exitFlag := by
      cases sendStep_cases hstep <;> rfl
    exact ⟨fun h₁ h₂ => hflag.trans (h.exit h₁ h₂), (h.remain.wakeAll woken).update nofun⟩
  | recv pc timeoutMs msg =>
    rw [hi] at hc
    obtain ⟨⟨sh₁, pc', msg'⟩, hstep, hc⟩ := Option.bind_eq_some_iff.1 hc
    cases hc
    have hexit : .rawQueue ∈ s.destroy.gone → s.sh.exitFlag = true := fun hg => by
      apply h.exit <;>
      · intro hd
        rw [hd] at hg
        cases hg
    obtain ⟨hpc, hflag⟩ := (h.remain i pc timeoutMs msg hi).step hexit hstep
    refine ⟨fun h₁ h₂ => hflag.trans (h.exit h₁ h₂), (h.remain.wakeAll []).update ?_⟩
    intro pc₁ t m he
    cases he
    exact hpc

theorem Late.wakeUp {s s' : Mq} (h : s.Late) {i : Nat} {ret : Int} (hs : s.wakeUp i ret = some s') :
    s'.Late := by
  obtain ⟨timeoutMs, msg, hi, rfl⟩ := wakeUp_spec hs
  refine ⟨h.exit, h.remain.update fun pc t m he => ?_⟩
  cases he
  exact h.remain i .blocked timeoutMs msg hi

/-- While destroy holds `r_mutex`, a receiver is before its first lock, in its wait or done. -/
theorem Locked.outside {s : Mq} (h : s.Locked) (hd : s.destroy = .deinit) {i : Nat} {pc : RecvPc}
    {timeoutMs : Int} {msg : List UInt8} (hi : s.calls i = .recv pc timeoutMs msg) :
    pc = .lockR ∨ pc = .blocked ∨ (∃ ret, pc = .relock ret) ∨ ∃ ret, pc = .returned ret := by
  have hnot : (s.calls i).holdsR = false := by
    by_contra hne
    have := (h.calls i).rMutex (Bool.not_eq_false _ ▸ hne)
    rw [h.destroyR (.inl hd)] at this
    cases this
  rw [hi] at hnot
  cases pc <;> simp [Call.holdsR] at hnot ⊢

theorem Late.destroyStep {s s' : Mq} (h : s.Late) (hlock : s.Locked) (hquiet : s.Quiet)
    (hs : s.step .destroy = some s') : s'.Late := by
  obtain ⟨⟨sh', d', woken⟩, hd, hs⟩ := Option.bind_eq_some_iff.1 hs
  cases hs
  have hexit := h.exit
  have hremain := h.remain
  generalize hpc : s.destroy = d at hd hexit hremain
  cases destroyStep_cases hd with
  | setExit => exact Late.of_nil (fun _ _ => rfl) rfl
  | broadcast | lockR hfree => exact Late.of_nil (fun _ _ => hexit nofun nofun) rfl
  | deinit =>
    refine ⟨fun _ _ => hexit nofun nofun, Remain.wakeAll (fun i pc t m hi => ?_) []⟩
    rcases hlock.outside hpc hi with rfl | rfl | ⟨ret, rfl⟩ | ⟨ret, rfl⟩
    · exact absurd hi (hquiet.deinit hpc i t m)
    · simp [RecvPc.MayRemain, DestroyPc.gone]
    · simp [RecvPc.MayRemain, DestroyPc.gone]
    · trivial
  | unlockR | destroyW | destroyCond hcond | free =>
    refine ⟨fun _ _ => hexit nofun nofun, Remain.wakeAll (fun i pc t m hi => ?_) []⟩
    have hrem := hremain i pc t m hi
    cases pc <;> simp [RecvPc.MayRemain, DestroyPc.gone] at hrem ⊢
  | destroyR =>
    refine ⟨fun _ _ => hexit nofun nofun, Remain.wakeAll (fun i pc t m hi => ?_) []⟩
    obtain ⟨ret, rfl⟩ := hquiet.destroyR hpc i pc t m hi
    trivial

theorem QuietReachable.late {q : LockFreeQueue} {s : Mq} (h : QuietReachable q s) : s.Late := by
  induction h with
  | init => exact Late.of_nil (fun h => absurd rfl h) rfl
  | @step s s' l hr hl hs ih =>
    cases l with
    | send i msg msgSize => exact Late.start hs
    | recv i msg msgSize timeoutMs => exact Late.start hs
    | call i choice => exact ih.callStep hs
    | wake i ret => exact ih.wakeUp hs
    | callDestroy =>
      unfold Mq.step at hs
      simp only at hs
      split_ifs at hs
      cases hs
      exact Late.of_nil (fun _ h => absurd rfl h) rfl
    | destroy => exact ih.destroyStep hr.reachable.locked (hl rfl) hs

/-- **Destroying an mq**: in a run whose destroy steps are all taken in quiet states, no receiver uses
a part that is gone and none is left blocked. -/
theorem QuietReachable.destroySafe {q : LockFreeQueue} {s : Mq} (h : QuietReachable q s) :
    s.DestroySafe := by
  refine ⟨fun i choice s' hs part hpart => ?_, fun hd i timeoutMs msg hi => ?_⟩
  · cases hi : s.calls i with
    | idle | send => rw [hi] at hpart; cases hpart
    | recv pc timeoutMs msg =>
      rw [hi] at hpart
      exact (h.late.remain i pc timeoutMs msg hi).alive part hpart
  · have := h.late.remain i .blocked timeoutMs msg hi
    rw [hd] at this
    exact this (by decide)

/-! ## A receiver waiting forever -/

def recvEmpty : List Label :=
  [.recv 0 (some [0]) 1 OSAL_WAITFOREVER, .call 0 none, .call 0 none]

theorem quiet_early {s : Mq} (h : s.destroy = .setExit ∨ s.destroy = .broadcast) : s.Quiet := by
  rcases h with h | h <;> exact ⟨fun hd => (by simp [h] at hd), fun hd => (by simp [h] at hd)⟩

theorem AllReturned.quiet {s : Mq} (h : s.AllReturned) : s.Quiet := by
  refine ⟨fun _ i timeoutMs msg hi => ?_, fun _ => h⟩
  obtain ⟨ret, hret⟩ := h i .lockR timeoutMs msg hi
  cases hret

theorem AllReturned.destroyStep {s s' : Mq} (h : s.AllReturned) (hs : s.step .destroy = some s') :
    s'.AllReturned := by
  obtain ⟨⟨sh', d', woken⟩, -, hs⟩ := Option.bind_eq_some_iff.1 hs
  cases hs
  intro i pc timeoutMs msg hi
  have hidle : ∀ timeoutMs msg, s.calls i ≠ .recv .blocked timeoutMs msg := fun t m hb => by
    obtain ⟨ret, hret⟩ := h i .blocked t m hb
    cases hret
  change wakeAll woken s.calls i = _ at hi
  unfold Mq.wakeAll Call.wake at hi
  split_ifs at hi
  · split at hi
    · next t m hb => exact absurd hb (hidle t m)
    · exact h i pc timeoutMs msg hi
  · exact h i pc timeoutMs msg hi

theorem QuietReachable.destroyRun {q : LockFreeQueue} (n : Nat) : ∀ {s s' : Mq},
    QuietReachable q s → s.AllReturned → Mq.run (List.replicate n .destroy) s = some s' →
    QuietReachable q s' := by
  induction n with
  | zero => intro s s' h _ hrun; cases hrun; exact h
  | succ n ih =>
    intro s s' h hret hrun
    obtain ⟨s₁, hs, hrun⟩ := Option.bind_eq_some_iff.1 hrun
    exact ih (h.step (fun _ => hret.quiet) hs) (hret.destroyStep hs) hrun

theorem QuietReachable.run {q : LockFreeQueue} {ls : List Label} : ∀ {s s' : Mq},
    QuietReachable q s → .destroy ∉ ls → Mq.run ls s = some s' → QuietReachable q s' := by
  induction ls with
  | nil => intro s s' h _ hrun; cases hrun; exact h
  | cons l ls ih =>
    intro s s' h hl hrun
    obtain ⟨s₁, hs, hrun⟩ := Option.bind_eq_some_iff.1 hrun
    obtain ⟨hne, hls⟩ := not_or.1 fun h' => hl (List.mem_cons.2 h')
    exact ih (h.step (fun he => absurd he.symm hne) hs) hls hrun

/-- The receiver blocks, destroy wakes it, and it leaves before destroy locks `r_mutex`. -/
theorem QuietReachable.destroySafe_woken : ∃ q s, osalLockFreeQueueInit 1 2 true = some q ∧
    Mq.run (recvEmpty ++ .call 0 none :: .callDestroy :: .destroy :: .destroy ::
      List.replicate 3 (.call 0 none) ++ List.replicate 7 .destroy) (Mq.init q) = some s ∧
    s.calls 0 = .recv (.returned OSAL_API_FAIL) OSAL_WAITFOREVER [0] ∧ s.destroy = .returned ∧
    s.DestroySafe := by
  obtain ⟨q, s, s₁, s₂, s₃, s₄, hq, hs, h₁, h₂, h₃, h₄, hrun, hd, hd₁, hret, hidle, hend, hd₄⟩ :
      ∃ q s s₁ s₂ s₃ s₄, osalLockFreeQueueInit 1 2 true = some q ∧
      Mq.run (recvEmpty ++ [.call 0 none, .callDestroy]) (Mq.init q) = some s ∧
      s.step .destroy = some s₁ ∧ s₁.step .destroy = some s₂ ∧
      Mq.run (List.replicate 3 (.call 0 none)) s₂ = some s₃ ∧
      Mq.run (List.replicate 7 .destroy) s₃ = some s₄ ∧
      Mq.run (recvEmpty ++ .call 0 none :: .callDestroy :: .destroy :: .destroy ::
        List.replicate 3 (.call 0 none) ++ List.replicate 7 .destroy) (Mq.init q) = some s₄ ∧
      s.destroy = .setExit ∧ s₁.destroy = .broadcast ∧
      s₃.calls 0 = .recv (.returned OSAL_API_FAIL) OSAL_WAITFOREVER [0] ∧
      (∀ i, s₃.calls (i + 1) = .idle) ∧
      s₄.calls 0 = .recv (.returned OSAL_API_FAIL) OSAL_WAITFOREVER [0] ∧ s₄.destroy = .returned :=
    ⟨_, _, _, _, _, _, rfl, rfl, rfl, rfl, rfl, rfl, rfl, rfl, rfl, rfl, fun _ => rfl, rfl, rfl⟩
  have hall : s₃.AllReturned := by
    intro i pc timeoutMs msg hi
    cases i with
    | zero =>
      cases hret.symm.trans hi
      exact ⟨_, rfl⟩
    | succ i => cases (hidle i).symm.trans hi
  have hr := QuietReachable.init.run (by decide) hs
  have hr₁ := hr.step (fun _ => quiet_early (.inl hd)) h₁
  have hr₂ := hr₁.step (fun _ => quiet_early (.inr hd₁)) h₂
  have hr₃ := hr₂.run (by decide) h₃
  exact ⟨q, s₄, hq, hrun, hend, hd₄, QuietReachable.destroySafe (hr₃.destroyRun 7 hall h₄)⟩

/-- Destroy takes `r_mutex` before the receiver it has woken does, which then locks the destroyed
mutex. -/
theorem destroy_races : ∃ q s s', osalLockFreeQueueInit 1 2 true = some q ∧
    run (recvEmpty ++ .call 0 none :: .callDestroy :: List.replicate 7 .destroy) (Mq.init q) =
      some s ∧
    s.step (.call 0 none) = some s' ∧ .rMutex ∈ (s.calls 0).uses ∧ .rMutex ∈ s.destroy.gone ∧
    ¬ s.DestroySafe := by
  obtain ⟨q, s, s', hq, hrun, hs, huses, hgone⟩ : ∃ q s s', osalLockFreeQueueInit 1 2 true = some q ∧
      run (recvEmpty ++ .call 0 none :: .callDestroy :: List.replicate 7 .destroy) (Mq.init q) =
        some s ∧
      s.step (.call 0 none) = some s' ∧ .rMutex ∈ (s.calls 0).uses ∧ .rMutex ∈ s.destroy.gone :=
    ⟨_, _, _, rfl, rfl, rfl, by decide, by decide⟩
  exact ⟨q, s, s', hq, hrun, hs, huses, hgone, fun h => h.alive 0 none s' hs _ huses hgone⟩

end Mq

end FwkMlib.Osal
