import Mathlib.Logic.Function.Basic

/-!
# Blocks of a heap, each with one owner

* `Owned heap owns` : every block that is allocated has an owner, which is one only, and what somebody
  owns is allocated. Where nobody owns anything, nothing is left (`Owned.eq_none`);
* `Owned.Move` : what somebody who owns at most one block may do. An owner may store into its block or
  give it back, and whoever owns none may be given a new one;
* `Owned.move`, `Owned.frame` : such a move keeps `Owned` and the blocks of the others.
-/

namespace FwkMlib.Lib

variable {α β ι : Type*}

structure Owned (heap : α → Option β) (owns : ι → Option α) : Prop where
  live : ∀ i a, owns i = some a → heap a ≠ none
  unique : ∀ i j a, owns i = some a → owns j = some a → i = j
  covered : ∀ a, heap a ≠ none → ∃ i, owns i = some a

namespace Owned

variable {heap : α → Option β} {owns : ι → Option α} {i : ι} {a : α}

theorem eq_none (h : Owned heap owns) (hnone : ∀ i, owns i = none) : heap = fun _ => none := by
  funext a
  by_contra ha
  obtain ⟨i, hi⟩ := h.covered a ha
  rw [hnone i] at hi
  cases hi

theorem ne (h : Owned heap owns) {j : ι} {b : α} (hi : owns i = some a) (hj : owns j = some b)
    (hne : j ≠ i) : b ≠ a := by
  rintro rfl
  exact hne (h.unique j i b hj hi)

variable [DecidableEq α] [DecidableEq ι]

/-- What may happen to the heap where somebody owns `o`, and what it owns then. -/
inductive Move (heap : α → Option β) : Option α → (α → Option β) → Option α → Prop
  | keep (o : Option α) : Move heap o heap o
  | store (a : α) (v : β) : Move heap (some a) (Function.update heap a (some v)) (some a)
  | alloc (a : α) (v : β) (ha : heap a = none) :
      Move heap none (Function.update heap a (some v)) (some a)
  | free (a : α) : Move heap (some a) (Function.update heap a none) none

omit [DecidableEq ι] in
theorem store (h : Owned heap owns) (hi : owns i = some a) (v : β) :
    Owned (Function.update heap a (some v)) owns where
  live j b hj := by
    by_cases hb : b = a
    · subst hb
      rw [Function.update_self]
      exact nofun
    · rw [Function.update_of_ne hb]
      exact h.live j b hj
  unique := h.unique
  covered b hb := by
    by_cases hba : b = a
    · exact ⟨i, hba ▸ hi⟩
    · rw [Function.update_of_ne hba] at hb
      exact h.covered b hb

theorem alloc (h : Owned heap owns) (ha : heap a = none) (hi : owns i = none) (v : β) :
    Owned (Function.update heap a (some v)) (Function.update owns i (some a)) := by
  -- nobody owned the new block
  have hnew : ∀ j b, owns j = some b → b ≠ a := by
    rintro j b hj rfl
    exact h.live j b hj ha
  refine ⟨fun j b hj => ?_, fun j k b hj hk => ?_, fun b hb => ?_⟩
  · by_cases hji : j = i
    · subst hji
      rw [Function.update_self] at hj
      cases hj
      rw [Function.update_self]
      exact nofun
    · rw [Function.update_of_ne hji] at hj
      rw [Function.update_of_ne (hnew j b hj)]
      exact h.live j b hj
  · by_cases hji : j = i <;> by_cases hki : k = i
    · rw [hji, hki]
    · subst hji
      rw [Function.update_self] at hj
      rw [Function.update_of_ne hki] at hk
      cases hj
      exact absurd rfl (hnew k a hk)
    · subst hki
      rw [Function.update_self] at hk
      rw [Function.update_of_ne hji] at hj
      cases hk
      exact absurd rfl (hnew j a hj)
    · rw [Function.update_of_ne hji] at hj
      rw [Function.update_of_ne hki] at hk
      exact h.unique j k b hj hk
  · by_cases hba : b = a
    · exact ⟨i, by rw [Function.update_self, hba]⟩
    · rw [Function.update_of_ne hba] at hb
      obtain ⟨j, hj⟩ := h.covered b hb
      have hji : j ≠ i := by
        rintro rfl
        rw [hi] at hj
        cases hj
      exact ⟨j, by rw [Function.update_of_ne hji, hj]⟩

theorem free (h : Owned heap owns) (hi : owns i = some a) :
    Owned (Function.update heap a none) (Function.update owns i none) := by
  refine ⟨fun j b hj => ?_, fun j k b hj hk => ?_, fun b hb => ?_⟩
  · by_cases hji : j = i
    · subst hji
      rw [Function.update_self] at hj
      cases hj
    · rw [Function.update_of_ne hji] at hj
      rw [Function.update_of_ne (h.ne hi hj hji)]
      exact h.live j b hj
  · by_cases hji : j = i
    · subst hji
      rw [Function.update_self] at hj
      cases hj
    by_cases hki : k = i
    · subst hki
      rw [Function.update_self] at hk
      cases hk
    · rw [Function.update_of_ne hji] at hj
      rw [Function.update_of_ne hki] at hk
      exact h.unique j k b hj hk
  · by_cases hba : b = a
    · subst hba
      rw [Function.update_self] at hb
      exact absurd rfl hb
    · rw [Function.update_of_ne hba] at hb
      obtain ⟨j, hj⟩ := h.covered b hb
      have hji : j ≠ i := by
        rintro rfl
        rw [hi] at hj
        exact hba (Option.some.inj hj).symm
      exact ⟨j, by rw [Function.update_of_ne hji, hj]⟩

theorem move (h : Owned heap owns) {heap' : α → Option β} {o : Option α}
    (hm : Move heap (owns i) heap' o) : Owned heap' (Function.update owns i o) := by
  generalize hi : owns i = o₀ at hm
  cases hm with
  | keep =>
    rw [← hi, Function.update_eq_self]
    exact h
  | store a v =>
    rw [← hi, Function.update_eq_self]
    exact h.store hi v
  | alloc a v ha => exact h.alloc ha hi v
  | free a => exact h.free hi

omit [DecidableEq ι] in
theorem frame (h : Owned heap owns) {heap' : α → Option β} {o : Option α}
    (hm : Move heap (owns i) heap' o) {j : ι} {b : α} (hj : owns j = some b) (hne : j ≠ i) :
    heap' b = heap b := by
  generalize hi : owns i = o₀ at hm
  cases hm with
  | keep => rfl
  | store a v => exact Function.update_of_ne (h.ne hi hj hne) _ _
  | alloc a v ha =>
    apply Function.update_of_ne
    rintro rfl
    exact h.live j b hj ha
  | free a => exact Function.update_of_ne (h.ne hi hj hne) _ _

end Owned

end FwkMlib.Lib
