import Mathlib.Algebra.Group.Nat.Defs
import Mathlib.Data.List.Basic

/-!
# Messages cut into pieces

A piece of a message carries how many more of its pieces follow, so that a reader of a stream of pieces
knows where a message ends.

* `Whole` : the pieces of one message; `join` : its data;
* `split` : a message cut into `n` pieces of a bounded size (`whole_split`, `join_split`);
* `takeMessage` : the data of the first message of a stream, and the rest (`takeMessage_append`);
* `exists_whole` : a stream that begins with the pieces of a message begins with all of them, once it is
  long enough.
-/

namespace FwkMlib.Lib

/-- How many pieces follow, and the data. -/
abbrev Piece (α : Type*) := Nat × List α

namespace Piece

variable {α : Type*}

def join (ps : List (Piece α)) : List α := ps.flatMap Prod.snd

/-- The pieces of one message count down to zero. -/
inductive Whole : List (Piece α) → Prop
  | last (data : List α) : Whole [(0, data)]
  | cons (data : List α) {n : Nat} {data' : List α} {ps : List (Piece α)}
      (h : Whole ((n, data') :: ps)) : Whole ((n + 1, data) :: (n, data') :: ps)

/-- `data` cut into `n` pieces of `size`, the last ones shorter. -/
def split (size : Nat) : Nat → List α → List (Piece α)
  | 0, _ => []
  | n + 1, data => (n, data.take size) :: split size n (data.drop size)

/-- The data of the first message, and what follows it. -/
def takeMessage : List (Piece α) → List α × List (Piece α)
  | [] => ([], [])
  | (n, data) :: ps =>
    if n = 0 then (data, ps) else (data ++ (takeMessage ps).1, (takeMessage ps).2)

@[simp] theorem join_nil : join ([] : List (Piece α)) = [] := rfl

@[simp] theorem join_cons (p : Piece α) (ps : List (Piece α)) : join (p :: ps) = p.2 ++ join ps := rfl

@[simp] theorem join_append (ps qs : List (Piece α)) : join (ps ++ qs) = join ps ++ join qs :=
  List.flatMap_append

@[simp] theorem length_split (size n : Nat) (data : List α) : (split size n data).length = n := by
  induction n generalizing data with
  | zero => rfl
  | succ n ih => rw [split, List.length_cons, ih]

theorem whole_split (size n : Nat) (data : List α) : Whole (split size (n + 1) data) := by
  induction n generalizing data with
  | zero => exact .last _
  | succ n ih => exact .cons _ (ih _)

theorem join_split (size n : Nat) (data : List α) (h : data.length ≤ n * size) :
    join (split size n data) = data := by
  induction n generalizing data with
  | zero =>
    rw [Nat.zero_mul] at h
    rw [List.eq_nil_of_length_eq_zero (Nat.le_zero.1 h)]
    rfl
  | succ n ih =>
    rw [Nat.succ_mul] at h
    rw [split, join_cons, ih _ (by rw [List.length_drop]; omega)]
    exact List.take_append_drop size data

theorem Whole.ne_nil {g : List (Piece α)} (h : Whole g) : g ≠ [] := by
  cases h <;> exact List.cons_ne_nil _ _

/-- The first piece counts the others. -/
theorem Whole.length_eq {g ps : List (Piece α)} {p : Piece α} (h : Whole g) (hg : g = p :: ps) :
    g.length = p.1 + 1 := by
  induction h generalizing p ps with
  | last data =>
    cases hg
    rfl
  | cons data h ih =>
    cases hg
    rw [List.length_cons, ih rfl]

/-- A piece has fewer behind it than the message has. -/
theorem Whole.fst_lt {g : List (Piece α)} {p : Piece α} (h : Whole g) (hp : p ∈ g) :
    p.1 < g.length := by
  induction h with
  | last data =>
    rw [List.mem_singleton.1 hp]
    exact Nat.one_pos
  | cons data h ih =>
    obtain rfl | hp := List.mem_cons.1 hp
    · have hlen := h.length_eq rfl
      rw [List.length_cons, hlen]
      exact Nat.lt_succ_self _
    · exact Nat.lt_succ_of_lt (ih hp)

/-- The first message of a stream is read whole, and nothing behind it. -/
theorem takeMessage_append {g : List (Piece α)} (h : Whole g) (ps : List (Piece α)) :
    takeMessage (g ++ ps) = (join g, ps) := by
  induction h with
  | last data =>
    rw [List.singleton_append, takeMessage, if_pos rfl, join_cons, join_nil, List.append_nil]
  | cons data h ih =>
    rw [List.cons_append, takeMessage, if_neg (Nat.succ_ne_zero _), ih]
    rfl

/-- A stream that begins like some messages begins with the first one, once it has as many pieces as its
first piece tells. -/
theorem exists_whole {gs : List (List (Piece α))} (hw : ∀ g ∈ gs, Whole g) {p : Piece α}
    {ps : List (Piece α)} (hpre : p :: ps <+: gs.flatten) :
    ∃ g gs', gs = g :: gs' ∧ g.length = p.1 + 1 ∧
      (g.length ≤ (p :: ps).length → ∃ qs, p :: ps = g ++ qs ∧ qs <+: gs'.flatten) := by
  cases gs with
  | nil =>
    rw [List.flatten_nil] at hpre
    exact absurd (List.prefix_nil.1 hpre) (List.cons_ne_nil _ _)
  | cons g gs' =>
    rw [List.flatten_cons] at hpre
    have hg : Whole g := hw g List.mem_cons_self
    obtain ⟨q, g', rfl⟩ : ∃ q g', g = q :: g' := List.exists_cons_of_ne_nil hg.ne_nil
    have hq : q = p := by
      obtain ⟨tail, htail⟩ := hpre
      rw [List.cons_append, List.cons_append] at htail
      exact (List.cons.inj htail).1.symm
    subst hq
    refine ⟨q :: g', gs', rfl, hg.length_eq rfl, fun hlen => ?_⟩
    obtain ⟨qs, hqs⟩ := List.prefix_of_prefix_length_le (List.prefix_append _ gs'.flatten) hpre hlen
    refine ⟨qs, hqs.symm, ?_⟩
    rw [← hqs] at hpre
    exact (List.prefix_append_right_inj _).1 hpre

end Piece

end FwkMlib.Lib
