import Mathlib.Algebra.GroupWithZero.Nat
import Mathlib.Order.Interval.Finset.Nat
import Mathlib.Algebra.BigOperators.Group.List.Basic

/-!
# Intervals beside each other

Intervals of numbers, each given by its first number and its length.

* `Beside` : two intervals do not overlap;
* `card_covered` : how many numbers a list of them covers;
* `sum_lt_of_beside` : in a bounded space they are not longer, together, than the space.
-/

namespace FwkMlib.Lib

def Beside (r r' : Nat × Nat) : Prop := r.1 + r.2 ≤ r'.1 ∨ r'.1 + r'.2 ≤ r.1

/-- The addresses below `n` in the intervals `rs`. -/
def covered (n : Nat) (rs : List (Nat × Nat)) : Finset Nat :=
  {x ∈ Finset.range n | ∃ r ∈ rs, r.1 ≤ x ∧ x < r.1 + r.2}

/-- Intervals beside each other cover as many addresses as they have together. -/
theorem card_covered {n : Nat} {rs : List (Nat × Nat)} (hp : rs.Pairwise Beside)
    (hb : ∀ r ∈ rs, r.1 + r.2 ≤ n) : (covered n rs).card = (rs.map Prod.snd).sum := by
  induction rs with
  | nil => simp [covered]
  | cons r rs ih =>
    rw [List.pairwise_cons] at hp
    have hr := hb r List.mem_cons_self
    have hsplit : covered n (r :: rs) = Finset.Ico r.1 (r.1 + r.2) ∪ covered n rs := by
      ext x
      simp only [covered, Finset.mem_filter, Finset.mem_range, List.mem_cons, Finset.mem_union,
        Finset.mem_Ico, exists_eq_or_imp]
      constructor
      · rintro ⟨hx, h | h⟩
        · exact .inl h
        · exact .inr ⟨hx, h⟩
      · rintro (h | ⟨hx, h⟩)
        · exact ⟨by omega, .inl h⟩
        · exact ⟨hx, .inr h⟩
    have hd : Disjoint (Finset.Ico r.1 (r.1 + r.2)) (covered n rs) := by
      refine Finset.disjoint_left.2 fun x hx hx' => ?_
      obtain ⟨-, r', hr', h'⟩ := Finset.mem_filter.1 hx'
      have hb := hp.1 r' hr'
      rw [Finset.mem_Ico] at hx
      unfold Beside at hb
      omega
    rw [hsplit, Finset.card_union_of_disjoint hd, Nat.card_Ico, Nat.add_sub_cancel_left,
      ih hp.2 fun r' hr' => hb r' (List.mem_cons_of_mem r hr'), List.map_cons, List.sum_cons]

theorem sum_lt_of_beside {n : Nat} {rs : List (Nat × Nat)} (hn : 0 < n) (hp : rs.Pairwise Beside)
    (hpos : ∀ r ∈ rs, 0 < r.1) (hb : ∀ r ∈ rs, r.1 + r.2 ≤ n) : (rs.map Prod.snd).sum < n := by
  have hsub : covered n rs ⊆ (Finset.range n).erase 0 := by
    intro x hx
    obtain ⟨hx, r, hr, h⟩ := Finset.mem_filter.1 hx
    have := hpos r hr
    exact Finset.mem_erase.2 ⟨by omega, hx⟩
  have hcard := Finset.card_le_card hsub
  rw [card_covered hp hb, Finset.card_erase_of_mem (Finset.mem_range.2 hn),
    Finset.card_range] at hcard
  omega

end FwkMlib.Lib
