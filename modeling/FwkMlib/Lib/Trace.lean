import Mathlib.Data.List.Basic

/-!
# Labelled steps and their traces

A system is a relation `step s ls s'`; `ls` are the labels the step shows, none for a silent one.

* `Steps step s tr s'` : some steps lead from `s` to `s'` and show the labels `tr`;
* `Steps.inv` : what every step keeps, of the state and of the labels shown so far, every run keeps;
* `Simulation.steps` : when the steps of one system are matched by runs of another one with the same
  labels, so are its runs.
-/

namespace FwkMlib.Lib

variable {σ τ ℓ : Type*}

/-- A run, with the labels its steps show. -/
inductive Steps (step : σ → List ℓ → σ → Prop) (s : σ) : List ℓ → σ → Prop
  | refl : Steps step s [] s
  | tail {tr ls : List ℓ} {s' s'' : σ} (hr : Steps step s tr s') (hs : step s' ls s'') :
      Steps step s (tr ++ ls) s''

namespace Steps

variable {step : σ → List ℓ → σ → Prop} {s s' s'' : σ} {tr tr' : List ℓ}

theorem single {ls : List ℓ} (h : step s ls s') : Steps step s ls s' := by
  have := Steps.refl.tail h
  rwa [List.nil_append] at this

theorem trans (h : Steps step s tr s') (h' : Steps step s' tr' s'') :
    Steps step s (tr ++ tr') s'' := by
  induction h' with
  | refl => rwa [List.append_nil]
  | tail _ hs ih =>
    rw [← List.append_assoc]
    exact ih.tail hs

/-- What every step keeps holds after every run. -/
theorem inv {P : List ℓ → σ → Prop} (h : P [] s)
    (hstep : ∀ tr s ls s', P tr s → step s ls s' → P (tr ++ ls) s') (hr : Steps step s tr s') :
    P tr s' := by
  induction hr with
  | refl => exact h
  | tail _ hs ih => exact hstep _ _ _ _ ih hs

end Steps

/-- Every step of one system is matched, along `R`, by a run of the other that shows the same. -/
def Simulation (cstep : σ → List ℓ → σ → Prop) (astep : τ → List ℓ → τ → Prop)
    (R : σ → τ → Prop) : Prop :=
  ∀ s a ls s', R s a → cstep s ls s' → ∃ a', Steps astep a ls a' ∧ R s' a'

/-- Then its traces are traces of the other one. -/
theorem Simulation.steps {cstep : σ → List ℓ → σ → Prop} {astep : τ → List ℓ → τ → Prop}
    {R : σ → τ → Prop} (hsim : Simulation cstep astep R) {s s' : σ} {a : τ} {tr : List ℓ}
    (hR : R s a) (hr : Steps cstep s tr s') : ∃ a', Steps astep a tr a' ∧ R s' a' := by
  induction hr with
  | refl => exact ⟨a, .refl, hR⟩
  | tail _ hs ih =>
    obtain ⟨a', hrun, hR'⟩ := ih
    obtain ⟨a'', hrun', hR''⟩ := hsim _ _ _ _ hR' hs
    exact ⟨a'', hrun.trans hrun', hR''⟩

end FwkMlib.Lib
