import FwkMlib.Lib.Guarded

/-!
# Threads under one lock

* `Pool` : threads that run one operation after the other on a shared state, under one lock;
* `Pool.Reachable.disciplined` : in every interleaving of disciplined operations each thread keeps the
  discipline;
* `Pool.Reachable.inv` : what each operation guarantees holds whenever the lock is free.
-/

namespace FwkMlib.Lib

variable {σ : Type}

/-- Threads that run one operation after the other: the shared state, who holds the lock, and for each
thread its operation and what it has still to do. -/
structure Pool (ι σ ω : Type) where
  state : σ
  owner : Option ι
  op : ι → ω
  cont : ι → Prog σ Unit

namespace Pool

variable {ι ω : Type} [DecidableEq ι]

/-- One action of one thread; the lock is taken for the operation `o` on a state that `J o` admits, if
it is not given back at once. While nobody holds it, others may change the state as `E` says. -/
inductive Step (code : ω → Prog σ Unit) (J : ω → σ → Prop) (E : σ → σ → Prop) :
    Pool ι σ ω → Pool ι σ ω → Prop
  | start {P : Pool ι σ ω} {i : ι} (o : ω) (hp : P.cont i = .ret ()) :
    Step code J E P { P with
      op := Function.update P.op i o
      cont := Function.update P.cont i (code o) }
  | acquire {P : Pool ι σ ω} {i : ι} {k : Prog σ Unit} (hp : P.cont i = .acquire k)
    (hfree : P.owner = none) (hJ : J (P.op i) P.state ∨ k.GivesBack) :
    Step code J E P { P with owner := some i, cont := Function.update P.cont i k }
  | release {P : Pool ι σ ω} {i : ι} {k : Prog σ Unit} (hp : P.cont i = .release k) :
    Step code J E P { P with owner := none, cont := Function.update P.cont i k }
  | access {P : Pool ι σ ω} {i : ι} {f : σ → σ} {k : σ → Prog σ Unit}
    (hp : P.cont i = .access f k) :
    Step code J E P { P with
      state := f P.state
      cont := Function.update P.cont i (k P.state) }
  | call {P : Pool ι σ ω} {i : ι} {f : σ → Option σ} {k : Prog σ Unit} {s' : σ}
    (hp : P.cont i = .call f k) (hf : f P.state = some s') :
    Step code J E P { P with state := s', cont := Function.update P.cont i k }
  | idle {P : Pool ι σ ω} {s' : σ} (hfree : P.owner = none) (hE : E P.state s') :
    Step code J E P { P with state := s' }

/-- From threads that have nothing to do. -/
inductive Reachable (code : ω → Prog σ Unit) (J : ω → σ → Prop) (E : σ → σ → Prop) (s : σ) :
    Pool ι σ ω → Prop
  | init (op : ι → ω) : Reachable code J E s ⟨s, none, op, fun _ => .ret ()⟩
  | step {P P' : Pool ι σ ω} (hr : Reachable code J E s P) (hs : Step code J E P P') :
    Reachable code J E s P'

variable {code : ω → Prog σ Unit} {J : ω → σ → Prop} {E : σ → σ → Prop} {I : σ → Prop} {s : σ}
  {P P' : Pool ι σ ω}

def Disciplined (P : Pool ι σ ω) : Prop :=
  ∀ i, (P.cont i).Disciplined (decide (P.owner = some i))

namespace Disciplined

variable {i : ι} {k : Prog σ Unit}

theorem of_ret (hd : P.Disciplined) (hp : P.cont i = .ret ()) : P.owner ≠ some i := by
  have hi := hd i
  rw [hp, Prog.disciplined_ret] at hi
  exact of_decide_eq_false hi

theorem of_acquire (hd : P.Disciplined) (hp : P.cont i = .acquire k) :
    P.owner ≠ some i ∧ k.Disciplined true := by
  have hi := hd i
  rw [hp, Prog.disciplined_acquire] at hi
  exact ⟨of_decide_eq_false hi.1, hi.2⟩

theorem of_release (hd : P.Disciplined) (hp : P.cont i = .release k) :
    P.owner = some i ∧ k.Disciplined false := by
  have hi := hd i
  rw [hp, Prog.disciplined_release] at hi
  exact ⟨of_decide_eq_true hi.1, hi.2⟩

theorem of_access {f : σ → σ} {c : σ → Prog σ Unit} (hd : P.Disciplined)
    (hp : P.cont i = .access f c) : P.owner = some i ∧ ∀ s, (c s).Disciplined true := by
  have hi := hd i
  rw [hp, Prog.disciplined_access] at hi
  exact ⟨of_decide_eq_true hi.1, hi.2⟩

theorem of_call {f : σ → Option σ} (hd : P.Disciplined) (hp : P.cont i = .call f k) :
    P.owner = some i ∧ k.Disciplined true := by
  have hi := hd i
  rw [hp, Prog.disciplined_call] at hi
  exact ⟨of_decide_eq_true hi.1, hi.2⟩

theorem update (hd : P.Disciplined) (hcont : P'.cont = Function.update P.cont i k)
    (hk : k.Disciplined (decide (P'.owner = some i)))
    (hothers : ∀ j, j ≠ i → (P'.owner = some j ↔ P.owner = some j)) : P'.Disciplined := by
  intro j
  rw [hcont]
  by_cases hj : j = i
  · subst hj
    rwa [Function.update_self]
  · rw [Function.update_of_ne hj, decide_eq_decide.2 (hothers j hj)]
    exact hd j

end Disciplined

/-- **Mutual exclusion** : a step of one thread keeps all of them disciplined. -/
theorem Step.disciplined (hcode : ∀ o, (code o).Disciplined false) (hd : P.Disciplined)
    (hs : Step code J E P P') : P'.Disciplined := by
  cases hs with
  | @start i o hp =>
    apply hd.update rfl
    · rw [decide_eq_false (hd.of_ret hp)]
      exact hcode o
    · exact fun j _ => Iff.rfl
  | @acquire i k hp hfree hJ =>
    apply hd.update rfl
    · rw [decide_eq_true rfl]
      exact (hd.of_acquire hp).2
    · intro j hj
      rw [hfree]
      exact iff_of_false (fun he => hj (Option.some.inj he).symm) (Option.some_ne_none j).symm
  | @release i k hp =>
    obtain ⟨howner, hk⟩ := hd.of_release hp
    apply hd.update rfl
    · exact hk
    · intro j hj
      rw [howner]
      exact iff_of_false (Option.some_ne_none j).symm (fun he => hj (Option.some.inj he).symm)
  | @access i f k hp =>
    obtain ⟨howner, hk⟩ := hd.of_access hp
    apply hd.update rfl
    · rw [decide_eq_true howner]
      exact hk P.state
    · exact fun j _ => Iff.rfl
  | @call i f k s' hp hf =>
    obtain ⟨howner, hk⟩ := hd.of_call hp
    apply hd.update rfl
    · rw [decide_eq_true howner]
      exact hk
    · exact fun j _ => Iff.rfl
  | idle hfree hE => exact hd

theorem Reachable.disciplined (hcode : ∀ o, (code o).Disciplined false)
    (hr : Reachable code J E s P) : P.Disciplined := by
  induction hr with
  | init op => exact fun i => Prog.disciplined_ret.2 rfl
  | step hr hs ih => exact hs.disciplined hcode ih

/-- Each thread still guarantees `I`, and the free state has it. -/
structure Sound (J : ω → σ → Prop) (I : σ → Prop) (P : Pool ι σ ω) : Prop where
  waits : ∀ i s, P.owner ≠ some i → (P.cont i).Guarantees (J (P.op i)) I s
  holds : ∀ i, P.owner = some i → (P.cont i).Guarantees (J (P.op i)) I P.state
  free : P.owner = none → I P.state

/-- The owner goes on with `k` in the state `s`. -/
theorem Sound.owned {i : ι} {k : Prog σ Unit} (h : P.Sound J I) (hi : P.owner = some i)
    (hk : k.Guarantees (J (P.op i)) I s) :
    Sound J I { P with state := s, cont := Function.update P.cont i k } := by
  refine ⟨fun j t hj => ?_, fun j hj => ?_, fun hnone => ?_⟩
  · have hne : j ≠ i := fun he => hj (he ▸ hi)
    show (Function.update P.cont i k j).Guarantees _ _ _
    rw [Function.update_of_ne hne]
    exact h.waits j t hj
  · obtain rfl := Option.some.inj (hi.symm.trans hj)
    show (Function.update P.cont i k i).Guarantees _ _ _
    rwa [Function.update_self]
  · exact absurd (hi.symm.trans hnone) (Option.some_ne_none i)

theorem Step.sound (hG : ∀ o s, (code o).Guarantees (J o) I s) (hE : ∀ s s', E s s' → I s → I s')
    (hd : P.Disciplined) (h : P.Sound J I) (hs : Step code J E P P') : P'.Sound J I := by
  cases hs with
  | @start i o hp =>
    have howner := hd.of_ret hp
    refine ⟨fun j t hj => ?_, fun j hj => ?_, h.free⟩
    · by_cases he : j = i
      · subst he
        simp only [Function.update_self]
        exact hG o t
      · simp only [Function.update_of_ne he]
        exact h.waits j t hj
    · have he : j ≠ i := fun he => howner (he ▸ hj)
      simp only [Function.update_of_ne he]
      exact h.holds j hj
  | @acquire i k hp hfree hJ =>
    refine ⟨fun j t hj => ?_, fun j hj => ?_, fun hnone => absurd hnone (Option.some_ne_none i)⟩
    · have he : j ≠ i := fun he => hj (congrArg some he).symm
      simp only [Function.update_of_ne he]
      exact h.waits j t (by rw [hfree]; exact (Option.some_ne_none j).symm)
    · obtain rfl := Option.some.inj hj
      have hi := h.waits i P.state (by rw [hfree]; exact (Option.some_ne_none i).symm)
      rw [hp, Prog.guarantees_acquire] at hi
      simp only [Function.update_self]
      exact hi P.state (hJ.imp_right fun hk => ⟨hk, h.free hfree⟩)
  | @release i k hp =>
    obtain ⟨howner, hd'⟩ := hd.of_release hp
    have hk := h.holds i howner
    rw [hp, Prog.guarantees_release] at hk
    refine ⟨fun j t _ => ?_, fun j hj => absurd hj.symm (Option.some_ne_none j), fun _ => hk.1⟩
    by_cases he : j = i
    · subst he
      simp only [Function.update_self]
      exact hk.2.of_free hd' t
    · simp only [Function.update_of_ne he]
      exact h.waits j t (by rw [howner]; exact fun hs => he (Option.some.inj hs).symm)
  | @access i f k hp =>
    obtain ⟨howner, -⟩ := hd.of_access hp
    have hk := h.holds i howner
    rw [hp, Prog.guarantees_access] at hk
    exact h.owned howner hk
  | @call i f k s' hp hf =>
    obtain ⟨howner, -⟩ := hd.of_call hp
    have hk := h.holds i howner
    rw [hp, Prog.guarantees_call] at hk
    exact h.owned howner (hk s' hf)
  | idle hfree hs =>
    refine ⟨h.waits, fun j hj => ?_, fun _ => hE _ _ hs (h.free hfree)⟩
    exact absurd (hfree.symm.trans hj).symm (Option.some_ne_none j)

/-- **Every interleaving** : whenever the lock is free, the state has the invariant. -/
theorem Reachable.inv (hcode : ∀ o, (code o).Disciplined false)
    (hG : ∀ o s, (code o).Guarantees (J o) I s) (hE : ∀ s s', E s s' → I s → I s') (hI : I s)
    (hr : Reachable code J E s P) : P.owner = none → I P.state := by
  have hsound : P.Sound J I := by
    induction hr with
    | init op =>
      exact ⟨fun _ _ _ => Prog.guarantees_ret, fun _ _ => Prog.guarantees_ret, fun _ => hI⟩
    | step hr hs ih => exact hs.sound hG hE (hr.disciplined hcode) ih
  exact hsound.free

/-- A critical section runs to its end, with the other threads at rest. -/
theorem Reachable.section_end {i : ι} {s' : σ} : ∀ (k : Prog σ Unit) {P : Pool ι σ ω}, k.Section →
    Reachable code J E s P → P.cont i = k → k.run P.state = some (s', ()) →
    ∃ P', Reachable code J E s P' ∧ P'.state = s' ∧ P'.owner = none ∧ P'.cont i = .ret () := by
  intro k
  induction k with
  | ret a => exact fun h => absurd h Prog.not_section_ret
  | acquire k ih => exact fun h => absurd h Prog.not_section_acquire
  | release k ih =>
    intro P h hr hp hrun
    obtain ⟨a, rfl⟩ := h.of_release
    have hstate : P.state = s' := congrArg Prod.fst (Option.some.inj hrun)
    exact ⟨_, .step hr (.release hp), hstate, rfl, Function.update_self i _ P.cont⟩
  | access f k ih =>
    intro P h hr hp hrun
    have hk := Prog.section_access.1 h P.state
    exact ih P.state hk (.step hr (.access hp)) (Function.update_self i _ P.cont) hrun
  | call f k ih =>
    intro P h hr hp hrun
    obtain ⟨t, hf, hrun⟩ := Option.bind_eq_some_iff.1 hrun
    have hk := Prog.section_call.1 h
    exact ih hk (.step hr (.call hp hf)) (Function.update_self i _ P.cont) hrun
  | stuck =>
    intro P h hr hp hrun
    cases hrun

/-- An operation runs from its start to its end, with the other threads at rest. -/
theorem Reachable.solo {i : ι} {o : ω} {s' : σ} (hr : Reachable code J E s P)
    (hfree : P.owner = none) (hend : P.cont i = .ret ()) (ha : (code o).Atomic) (hJ : J o P.state)
    (hrun : (code o).run P.state = some (s', ())) :
    ∃ P', Reachable code J E s P' ∧ P'.state = s' ∧ P'.owner = none ∧ P'.cont i = .ret () := by
  obtain ⟨k, hk, hsection⟩ := ha
  rw [hk] at hrun
  have hstart := Reachable.step hr (.start o hend)
  have hcont : Function.update P.cont i (code o) i = .acquire k := by
    rw [Function.update_self, hk]
  have hop : J (Function.update P.op i o i) P.state := by
    rwa [Function.update_self]
  exact Reachable.section_end k hsection (.step hstart (.acquire hcont hfree (.inl hop)))
    (Function.update_self i _ _) hrun

end Pool

end FwkMlib.Lib
