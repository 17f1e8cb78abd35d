import Mathlib.Data.List.Basic
import Mathlib.Data.List.Nodup

/-!
# Paths of nullable links

A singly linked list is the path one walks from a nullable link by following `nx` until the null
link is read.

* `Seg nx p l q` : from the link `p`, through the nodes `l`, to the link `q`;
* `Path nx p l` : a segment that ends in the null link;
* `Seg.append`, `Path.split` : cutting at a node;
* `Seg.congr`, `Path.congr` : a path reads the links of its own nodes only;
* `Path.nodup` : a path never meets a node twice, so a list that ends is acyclic.
-/

namespace FwkMlib.Lib

variable {α : Type*} {nx nx' : α → Option α}

/-- From the link `p`, through the nodes `l`, to the link `q`. -/
def Seg (nx : α → Option α) : Option α → List α → Option α → Prop
  | p, [], q => p = q
  | p, a :: l, q => p = some a ∧ Seg nx (nx a) l q

/-- From the link `p`, through the nodes `l`, to the null link. -/
abbrev Path (nx : α → Option α) (p : Option α) (l : List α) : Prop := Seg nx p l none

@[simp] theorem seg_nil {p q : Option α} : Seg nx p [] q ↔ p = q := Iff.rfl

/-- A segment reads the links of its own nodes only. -/
theorem Seg.congr {p q : Option α} {l : List α} (h : Seg nx p l q) (H : ∀ a ∈ l, nx' a = nx a) :
    Seg nx' p l q := by
  induction l generalizing p with
  | nil => exact h
  | cons a l ih =>
    obtain ⟨rfl, h⟩ := h
    refine ⟨rfl, ?_⟩
    rw [H a List.mem_cons_self]
    exact ih h fun b hb => H b (List.mem_cons_of_mem a hb)

theorem Seg.append {p q r : Option α} {l₁ l₂ : List α} (h₁ : Seg nx p l₁ q) (h₂ : Seg nx q l₂ r) :
    Seg nx p (l₁ ++ l₂) r := by
  induction l₁ generalizing p with
  | nil => obtain rfl : p = q := h₁; exact h₂
  | cons a l ih => exact ⟨h₁.1, ih h₁.2⟩

/-- The link read before a node on a segment points to that node. -/
theorem Seg.split {p q : Option α} {a : α} {l₁ l₂ : List α} (h : Seg nx p (l₁ ++ a :: l₂) q) :
    Seg nx p l₁ (some a) ∧ Seg nx (nx a) l₂ q := by
  induction l₁ generalizing p with
  | nil => exact h
  | cons b l ih => exact ⟨⟨h.1, (ih h.2).1⟩, (ih h.2).2⟩

/-- Retargeting the last link of a segment. -/
theorem Seg.retarget {p q q' : Option α} {z : α} {l : List α} (h : Seg nx p (l ++ [z]) q)
    (hz : nx' z = q') (H : ∀ a ∈ l, nx' a = nx a) : Seg nx' p (l ++ [z]) q' := by
  obtain ⟨h₁, -⟩ := h.split
  exact (h₁.congr H).append ⟨rfl, hz⟩

/-- A walk is determined by its first link. -/
theorem Path.unique {p : Option α} {l l' : List α} (h : Path nx p l) (h' : Path nx p l') :
    l = l' := by
  induction l generalizing p l' with
  | nil =>
    obtain rfl : p = none := h
    cases l' with
    | nil => rfl
    | cons b l' => exact absurd h'.1 (by simp)
  | cons a l ih =>
    obtain ⟨rfl, h⟩ := h
    cases l' with
    | nil => exact absurd h' (by simp)
    | cons b l' =>
      obtain ⟨hb, h'⟩ := h'
      obtain rfl := Option.some.inj hb
      rw [ih h h']

theorem Path.congr {p : Option α} {l : List α} (h : Path nx p l) (H : ∀ a ∈ l, nx' a = nx a) :
    Path nx' p l := Seg.congr h H

theorem Path.nodup {p : Option α} {l : List α} (h : Path nx p l) : l.Nodup := by
  induction l generalizing p with
  | nil => exact List.nodup_nil
  | cons a l ih =>
    refine List.nodup_cons.2 ⟨fun ha => ?_, ih h.2⟩
    -- behind a second visit of `a` the walk would be as long as behind the first
    obtain ⟨l₁, l₂, rfl⟩ := List.append_of_mem ha
    have hlong := h.2
    have hshort : Path nx (nx a) l₂ := (Seg.split hlong).2
    have hlen := congrArg List.length (Path.unique hlong hshort)
    simp at hlen
    omega

end FwkMlib.Lib
