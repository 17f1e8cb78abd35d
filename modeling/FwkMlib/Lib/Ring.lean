import Mathlib.Data.List.Cycle
import Mathlib.Data.List.Iterate

/-!
# Rings of links

A circular doubly linked list is a duplicate-free list of nodes whose consecutive members, the last
and the first included, stand in a link relation `R` (`R a b` : `a`'s forward link is `b` and `b`'s
backward link is `a`).

* `Ring R l` : the nodes `l`, in link order, form a ring; the starting point is immaterial
  (`Ring.rotate`);
* `Ring.snoc`, `Ring.remove` : the two edits, for any change of the links that touches only the seam;
* `Ring.rel_head`, `Ring.rel_middle`, `Ring.rel_last` : the links read while walking the ring;
* `Ring.iterate`, `Ring.reverse` : the walk once around the ring, in both directions;
* `Ring.and` : two link relations along one ring.
-/

namespace FwkMlib.Lib

variable {α : Type*} {R R' : α → α → Prop}

/-- The nodes of `l`, in this order, form a ring under the link relation `R`. -/
structure Ring (R : α → α → Prop) (l : List α) : Prop where
  nodup : l.Nodup
  chain : Cycle.Chain R (l : Cycle α)

namespace Ring

theorem nil : Ring R ([] : List α) := ⟨List.nodup_nil, Cycle.Chain.nil R⟩

theorem singleton {a : α} (h : R a a) : Ring R [a] :=
  ⟨List.nodup_singleton a, (Cycle.chain_singleton R a).2 h⟩

/-- A ring may be entered at any of its nodes. -/
theorem rotate {l₁ l₂ : List α} (h : Ring R (l₁ ++ l₂)) : Ring R (l₂ ++ l₁) := by
  refine ⟨List.nodup_append_comm.1 h.nodup, ?_⟩
  rw [Cycle.coe_eq_coe.2 List.isRotated_append]
  exact h.chain

/-- A ring only depends on the links between its own nodes. -/
theorem imp {l : List α} (h : Ring R l) (H : ∀ a ∈ l, ∀ b ∈ l, R a b → R' a b) : Ring R' l := by
  refine ⟨h.nodup, ?_⟩
  cases l with
  | nil => exact Cycle.Chain.nil R'
  | cons a l =>
    have hc := (Cycle.chain_coe_cons R a l).1 h.chain
    refine (Cycle.chain_coe_cons R' a l).2 (hc.imp_of_mem_imp fun x y hx hy => H x ?_ y ?_) <;>
      simp_all [or_comm]

theorem rel_head {a b : α} {l : List α} (h : Ring R (a :: b :: l)) : R a b := by
  have hc := (Cycle.chain_coe_cons R a (b :: l)).1 h.chain
  exact hc.rel

theorem rel_last {a z : α} {l : List α} (h : Ring R (a :: l ++ [z])) : R z a := by
  have hz : Ring R (z :: a :: l) := by simpa using h.rotate
  exact hz.rel_head

/-- Where every node has one forward link, a ring is determined by its first node and its size. -/
theorem unique (hR : ∀ a b b', R a b → R a b' → b = b') {u : α} {l l' : List α}
    (h : Ring R (u :: l)) (h' : Ring R (u :: l')) (hlen : l.length = l'.length) : l = l' := by
  have key : ∀ (l l' : List α) (a : α), l.length = l'.length → (a :: (l ++ [u])).IsChain R →
      (a :: (l' ++ [u])).IsChain R → l = l' := by
    intro l
    induction l with
    | nil => exact fun l' a hlen _ _ => (List.length_eq_zero_iff.1 hlen.symm).symm
    | cons b l ih =>
      intro l' a hlen hc hc'
      cases l' with
      | nil => cases hlen
      | cons b' l' =>
        rw [List.cons_append, List.isChain_cons_cons] at hc hc'
        obtain rfl := hR a b b' hc.1 hc'.1
        rw [ih l' b (Nat.succ.inj hlen) hc.2 hc'.2]
  exact key l l' u hlen ((Cycle.chain_coe_cons R u l).1 h.chain)
    ((Cycle.chain_coe_cons R u l').1 h'.chain)

theorem rel_self {a : α} (h : Ring R [a]) : R a a := (Cycle.chain_singleton R a).1 h.chain

theorem rel_middle {a b : α} {l₁ l₂ : List α} (h : Ring R (l₁ ++ a :: b :: l₂)) : R a b := by
  have hr : Ring R (a :: b :: (l₂ ++ l₁)) := by simpa using h.rotate
  exact hr.rel_head

theorem exists_next {a : α} {l : List α} (h : Ring R l) (ha : a ∈ l) : ∃ b ∈ l, R a b := by
  obtain ⟨l₁, l₂, rfl⟩ := List.append_of_mem ha
  have hr : Ring R (a :: (l₂ ++ l₁)) := by simpa using h.rotate
  cases hm : l₂ ++ l₁ with
  | nil => rw [hm] at hr; exact ⟨a, ha, hr.rel_self⟩
  | cons b m =>
    rw [hm] at hr
    have hb : b ∈ l₂ ++ l₁ := hm ▸ List.mem_cons_self
    exact ⟨b, by rcases List.mem_append.1 hb with hb | hb <;> simp [hb], hr.rel_head⟩

theorem exists_prev {a : α} {l : List α} (h : Ring R l) (ha : a ∈ l) : ∃ b ∈ l, R b a := by
  obtain ⟨l₁, l₂, rfl⟩ := List.append_of_mem ha
  have hr : Ring R (a :: (l₂ ++ l₁)) := by simpa using h.rotate
  rcases List.eq_nil_or_concat (l₂ ++ l₁) with hm | ⟨m, z, hm⟩
  · rw [hm] at hr; exact ⟨a, ha, hr.rel_self⟩
  · rw [List.concat_eq_append] at hm
    rw [hm] at hr
    have hz : z ∈ l₂ ++ l₁ := hm ▸ List.mem_append_right m List.mem_cons_self
    exact ⟨z, by rcases List.mem_append.1 hz with hz | hz <;> simp [hz], hr.rel_last⟩

theorem and {l : List α} (h : Ring R l) (h' : Ring R' l) :
    Ring (fun a b => R a b ∧ R' a b) l := by
  refine ⟨h.nodup, ?_⟩
  cases l with
  | nil => exact Cycle.Chain.nil _
  | cons a l =>
    have hc := (Cycle.chain_coe_cons R a l).1 h.chain
    have hc' := (Cycle.chain_coe_cons R' a l).1 h'.chain
    apply (Cycle.chain_coe_cons _ a l).2
    rw [List.isChain_iff_getElem] at hc hc' ⊢
    exact fun i hi => ⟨hc i hi, hc' i hi⟩

/-- The ring walked against the links. -/
theorem reverse {a : α} {l : List α} (h : Ring R (a :: l)) :
    Ring (fun x y => R y x) (a :: l.reverse) := by
  refine ⟨?_, ?_⟩
  · rw [List.nodup_cons, List.mem_reverse, List.nodup_reverse]
    exact List.nodup_cons.1 h.nodup
  · have hc := (Cycle.chain_coe_cons R a l).1 h.chain
    apply (Cycle.chain_coe_cons _ a l.reverse).2
    rw [← List.isChain_reverse]
    simpa using hc

/-- **Once around the ring**: following the links from the head visits the nodes in their order and
returns to the head. -/
theorem iterate {f : α → α} (hf : ∀ x y, R x y → f x = y) {a : α} {l : List α}
    (h : Ring R (a :: l)) : List.iterate f a (l.length + 2) = a :: (l ++ [a]) := by
  have key : ∀ (l : List α) (a : α), (a :: l).IsChain R →
      List.iterate f a (l.length + 1) = a :: l := by
    intro l
    induction l with
    | nil => exact fun a _ => rfl
    | cons b l ih =>
      intro a hc
      rw [List.isChain_cons_cons] at hc
      rw [List.length_cons, List.iterate, hf a b hc.1, ih b hc.2]
  have hw := key (l ++ [a]) a ((Cycle.chain_coe_cons R a l).1 h.chain)
  rwa [List.length_append] at hw

/-- **Link a node in** behind the last node: the new links are the seam's, every other link inside
the ring is kept. -/
theorem snoc {a x : α} {l : List α} (h : Ring R (a :: l)) (hx : x ∉ a :: l)
    (hkeep : ∀ u ∈ a :: l, ∀ v ∈ l, R u v → R' u v) (hlast : ∀ u ∈ a :: l, R u a → R' u x)
    (hclose : R' x a) : Ring R' (a :: l ++ [x]) := by
  refine ⟨List.nodup_append_comm.1 (List.nodup_cons.2 ⟨hx, h.nodup⟩), ?_⟩
  have hc := (Cycle.chain_coe_cons R a l).1 h.chain
  rw [List.cons_append]
  refine (Cycle.chain_coe_cons R' a (l ++ [x])).2 ?_
  rw [← List.cons_append, List.isChain_append] at hc
  obtain ⟨hinner, -, hseam⟩ := hc
  rw [List.append_assoc, ← List.cons_append, List.isChain_append]
  refine ⟨?_, by simp [hclose], fun u hu v hv => ?_⟩
  · exact hinner.imp_of_mem_tail_imp fun u v hu hv => hkeep u hu v hv
  · obtain rfl : v = x := by simpa [eq_comm] using hv
    exact hlast u (List.mem_of_mem_getLast? hu) (hseam u hu a (by simp))

/-- **Unlink the head**: its neighbours get linked, every other link is kept. -/
theorem tail {x : α} {l : List α} (h : Ring R (x :: l))
    (hkeep : ∀ u ∈ l, ∀ v ∈ l, R u v → R' u v)
    (hseam : ∀ u ∈ l, ∀ v ∈ l, R u x → R x v → R' u v) : Ring R' l := by
  refine ⟨(List.nodup_cons.1 h.nodup).2, ?_⟩
  cases l with
  | nil => exact Cycle.Chain.nil R'
  | cons a l =>
    have hc := (Cycle.chain_coe_cons R x (a :: l)).1 h.chain
    refine (Cycle.chain_coe_cons R' a l).2 ?_
    rw [List.cons_append, List.isChain_cons_cons, ← List.cons_append, List.isChain_append] at hc
    obtain ⟨hxa, hinner, -, hlast⟩ := hc
    rw [← List.cons_append, List.isChain_append]
    refine ⟨hinner.imp_of_mem_imp fun u v hu hv => hkeep u hu v hv, by simp, fun u hu v hv => ?_⟩
    obtain rfl : v = a := by simpa [eq_comm] using hv
    exact hseam u (List.mem_of_mem_getLast? hu) v (by simp) (hlast u hu x (by simp)) hxa

/-- **Unlink a node** anywhere in the ring. -/
theorem remove {x : α} {l₁ l₂ : List α} (h : Ring R (l₁ ++ x :: l₂))
    (hkeep : ∀ u ∈ l₁ ++ l₂, ∀ v ∈ l₁ ++ l₂, R u v → R' u v)
    (hseam : ∀ u ∈ l₁ ++ l₂, ∀ v ∈ l₁ ++ l₂, R u x → R x v → R' u v) : Ring R' (l₁ ++ l₂) := by
  have hr : Ring R (x :: (l₂ ++ l₁)) := by simpa using h.rotate
  have hm : ∀ {u}, u ∈ l₂ ++ l₁ → u ∈ l₁ ++ l₂ := by simp [or_comm]
  exact (hr.tail (fun u hu v hv => hkeep u (hm hu) v (hm hv))
    fun u hu v hv => hseam u (hm hu) v (hm hv)).rotate

end Ring

end FwkMlib.Lib
