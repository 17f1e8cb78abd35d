import Mathlib.Tactic.SplitIfs

/-!
# `for` loops

`forLoop cond step body fuel s` is `for (; cond; step) body` from the state `s`, with at most `fuel`
tests of the condition.

* `forLoop_of_inv` : the loop that works off a list ends, with its invariant.
-/

namespace FwkMlib.Lib

variable {α ι : Type} {cond : α → Bool} {step body : α → α} {s : α}

/-- None, when the fuel does not suffice. -/
def forLoop (cond : α → Bool) (step body : α → α) : Nat → α → Option α
  | 0, _ => none
  | fuel + 1, s => if cond s then forLoop cond step body fuel (step (body s)) else some s

theorem forLoop_of_cond (fuel : Nat) (h : cond s = true) :
    forLoop cond step body (fuel + 1) s = forLoop cond step body fuel (step (body s)) := by
  rw [forLoop, if_pos h]

theorem forLoop_of_not_cond (fuel : Nat) (h : cond s = false) :
    forLoop cond step body (fuel + 1) s = some s := by
  rw [forLoop, if_neg (by rw [h]; exact Bool.false_ne_true)]

/-- **The loop rule** : `Inv xs s` says that `xs` is what the loop has still to do. It goes on as long
as there is something left, and does one thing a round. -/
theorem forLoop_of_inv (Inv : List ι → α → Prop) (hnil : ∀ s, Inv [] s → cond s = false)
    (hcons : ∀ x xs s, Inv (x :: xs) s → cond s = true ∧ Inv xs (step (body s))) :
    ∀ xs s, Inv xs s →
      ∃ r, Inv [] r ∧ ∀ fuel, xs.length < fuel → forLoop cond step body fuel s = some r := by
  intro xs
  induction xs with
  | nil =>
    intro s h
    refine ⟨s, h, fun fuel hf => ?_⟩
    obtain ⟨k, rfl⟩ := Nat.exists_eq_add_of_lt hf
    exact forLoop_of_not_cond _ (hnil s h)
  | cons x xs ih =>
    intro s h
    obtain ⟨hcond, hnext⟩ := hcons x xs s h
    obtain ⟨r, hr, hrun⟩ := ih _ hnext
    refine ⟨r, hr, fun fuel hf => ?_⟩
    obtain ⟨k, rfl⟩ := Nat.exists_eq_add_of_lt hf
    rw [forLoop_of_cond _ hcond]
    apply hrun
    rw [List.length_cons]
    omega

end FwkMlib.Lib
