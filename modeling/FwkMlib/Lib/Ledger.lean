import Mathlib.Data.Finset.Insert
import Mathlib.Data.Finset.Erase

/-!
# What a routine does to its resources

A log of acquisitions, uses and releases. `Deed.run` follows which resources are held and refuses to
acquire what is held, or to use or release what is not. A log that it follows from nothing to nothing
releases each resource as often as it acquires it (`Deed.count_release`).
-/

namespace FwkMlib.Lib

/-- One thing done to a resource. -/
inductive Deed (ρ : Type*)
  | acquire (r : ρ)
  | use (r : ρ)
  | release (r : ρ)
  deriving DecidableEq

namespace Deed

variable {ρ : Type*} [DecidableEq ρ]

def apply (held : Finset ρ) : Deed ρ → Option (Finset ρ)
  | acquire r => if r ∈ held then none else some (insert r held)
  | use r => if r ∈ held then some held else none
  | release r => if r ∈ held then some (held.erase r) else none

def run : List (Deed ρ) → Finset ρ → Option (Finset ρ)
  | [], held => some held
  | d :: ds, held => (d.apply held).bind (run ds)

theorem run_append (ds es : List (Deed ρ)) : ∀ held : Finset ρ,
    run (ds ++ es) held = (run ds held).bind (run es) := by
  induction ds with
  | nil => exact fun held => rfl
  | cons d ds ih =>
    intro held
    rw [List.cons_append, run, run, Option.bind_assoc]
    exact congrArg _ (funext ih)

/-- The balance of one resource over one deed. -/
theorem count_apply {d : Deed ρ} {held held' : Finset ρ} (h : d.apply held = some held') (r : ρ) :
    [d].count (acquire r) + (if r ∈ held then 1 else 0) =
      [d].count (release r) + (if r ∈ held' then 1 else 0) := by
  cases d with
  | acquire s =>
    simp only [apply, Option.ite_none_left_eq_some, Option.some.injEq] at h
    obtain ⟨hs, rfl⟩ := h
    by_cases hr : s = r
    · subst hr
      simp [hs]
    · simp [hr, Ne.symm hr]
  | use s =>
    simp only [apply, Option.ite_none_right_eq_some, Option.some.injEq] at h
    obtain ⟨-, rfl⟩ := h
    simp
  | release s =>
    simp only [apply, Option.ite_none_right_eq_some, Option.some.injEq] at h
    obtain ⟨hs, rfl⟩ := h
    by_cases hr : s = r
    · subst hr
      simp [hs]
    · simp [hr, Ne.symm hr]

/-- The balance of one resource over a log. -/
theorem count_run {ds : List (Deed ρ)} (r : ρ) : ∀ {held held' : Finset ρ},
    run ds held = some held' →
    ds.count (acquire r) + (if r ∈ held then 1 else 0) =
      ds.count (release r) + (if r ∈ held' then 1 else 0) := by
  induction ds with
  | nil =>
    intro held held' h
    obtain rfl := Option.some.inj h
    rfl
  | cons d ds ih =>
    intro held held' h
    obtain ⟨mid, hd, hrun⟩ := Option.bind_eq_some_iff.1 h
    have h₁ := count_apply hd r
    have h₂ := ih hrun
    have hsplit : ∀ x : Deed ρ, (d :: ds).count x = [d].count x + ds.count x := by
      intro x
      rw [← List.count_append]
      rfl
    rw [hsplit, hsplit]
    omega

/-- A log from nothing to nothing releases what it acquires. -/
theorem count_release {ds : List (Deed ρ)} (h : run ds ∅ = some ∅) (r : ρ) :
    ds.count (release r) = ds.count (acquire r) := by
  have := count_run r h
  simpa using this.symm

end Deed

end FwkMlib.Lib
