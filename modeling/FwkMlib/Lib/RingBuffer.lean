import Mathlib.Data.Nat.ModEq

/-!
# Bounded ring buffers

A ring of `n` slots, one of which stays empty, holds the list `xs` from slot `r` on, round the end of
the ring when it comes to it; `ringIdx n r i` is the slot of the `i`-th message.

* `Holds.push`, `Holds.pop` : storing at the write slot, moving the read slot;
* `Holds.full_iff`, `Holds.empty_iff` : what the two slot numbers tell about the number of messages;
* `Holds.congr` : the content only depends on the occupied slots, the write slot not being one of
  them (`Holds.writeIdx_ne`).
-/

namespace FwkMlib.Lib

variable {β : Type*}

/-- The slot `i` places after `r`. -/
def ringIdx (n r i : Nat) : Nat := (r + i) % n

theorem ringIdx_lt {n r : Nat} (hr : r < n) (i : Nat) : ringIdx n r i < n :=
  Nat.mod_lt _ (by omega)

theorem ringIdx_zero {n r : Nat} (hr : r < n) : ringIdx n r 0 = r := Nat.mod_eq_of_lt hr

theorem ringIdx_add (n r i j : Nat) : ringIdx n (ringIdx n r i) j = ringIdx n r (i + j) := by
  unfold ringIdx
  rw [Nat.mod_add_mod, Nat.add_assoc]

theorem ringIdx_inj {n r i j : Nat} (hi : i < n) (hj : j < n) (h : ringIdx n r i = ringIdx n r j) :
    i = j := by
  have hmod : i ≡ j [MOD n] := Nat.ModEq.add_left_cancel' r h
  exact hmod.eq_of_lt_of_lt hi hj

namespace RingBuffer

/-- The slots from `r` on hold `xs`, and at least one slot is free. -/
structure Holds (n : Nat) (slot : Nat → β) (r : Nat) (xs : List β) : Prop where
  read_lt : r < n
  length_lt : xs.length < n
  get : ∀ i (h : i < xs.length), slot (ringIdx n r i) = xs[i]

variable {n r : Nat} {slot slot' : Nat → β} {xs : List β} {x : β}

theorem Holds.nil (hr : r < n) : Holds n slot r [] :=
  ⟨hr, by rw [List.length_nil]; omega, fun i h => absurd h (Nat.not_lt_zero i)⟩

/-- The write slot is none of the occupied ones. -/
theorem Holds.writeIdx_ne (h : Holds n slot r xs) {i : Nat} (hi : i < xs.length) :
    ringIdx n r i ≠ ringIdx n r xs.length := fun he =>
  Nat.ne_of_lt hi (ringIdx_inj (hi.trans h.length_lt) h.length_lt he)

theorem Holds.congr (h : Holds n slot r xs)
    (heq : ∀ i < xs.length, slot' (ringIdx n r i) = slot (ringIdx n r i)) : Holds n slot' r xs :=
  ⟨h.read_lt, h.length_lt, fun i hi => (heq i hi).trans (h.get i hi)⟩

/-- Storing into the write slot does not disturb the messages. -/
theorem Holds.write (h : Holds n slot r xs)
    (hne : ∀ k, k ≠ ringIdx n r xs.length → slot' k = slot k) : Holds n slot' r xs :=
  h.congr fun _ hi => hne _ (h.writeIdx_ne hi)

/-- A message stored in the write slot is the last one once the write slot moves on. -/
theorem Holds.push (h : Holds n slot r xs) (hx : slot (ringIdx n r xs.length) = x)
    (hlen : xs.length + 1 < n) : Holds n slot r (xs ++ [x]) := by
  refine ⟨h.read_lt, by rw [List.length_append]; exact hlen, fun i hi => ?_⟩
  rw [List.length_append, List.length_singleton] at hi
  rw [List.getElem_append]
  split_ifs with hlt
  · exact h.get i hlt
  · obtain rfl : i = xs.length := by omega
    simpa using hx

theorem Holds.head (h : Holds n slot r (x :: xs)) : slot r = x := by
  have := h.get 0 (Nat.succ_pos _)
  rwa [ringIdx_zero h.read_lt] at this

/-- The others are left when the read slot moves past the first message. -/
theorem Holds.pop (h : Holds n slot r (x :: xs)) : Holds n slot (ringIdx n r 1) xs := by
  refine ⟨ringIdx_lt h.read_lt 1, Nat.lt_of_succ_lt h.length_lt, fun i hi => ?_⟩
  rw [ringIdx_add, Nat.add_comm 1 i]
  exact h.get (i + 1) (Nat.succ_lt_succ hi)

theorem Holds.empty_iff (h : Holds n slot r xs) : ringIdx n r xs.length = r ↔ xs = [] := by
  constructor
  · intro he
    rw [← List.length_eq_zero_iff]
    have h0 : ringIdx n r xs.length = ringIdx n r 0 := by rw [he, ringIdx_zero h.read_lt]
    exact ringIdx_inj h.length_lt (Nat.zero_lt_of_lt h.read_lt) h0
  · rintro rfl
    exact ringIdx_zero h.read_lt

/-- The slot after the write slot is the read slot exactly when only the write slot is free. -/
theorem Holds.full_iff (h : Holds n slot r xs) :
    ringIdx n (ringIdx n r xs.length) 1 = r ↔ xs.length + 1 = n := by
  rw [ringIdx_add]
  constructor
  · intro he
    by_contra hne
    have hlt : xs.length + 1 < n := by have := h.length_lt; omega
    have := ringIdx_inj hlt (Nat.zero_lt_of_lt h.read_lt) (he.trans (ringIdx_zero h.read_lt).symm)
    omega
  · intro he
    unfold ringIdx
    rw [he, Nat.add_mod_right, Nat.mod_eq_of_lt h.read_lt]

end RingBuffer

end FwkMlib.Lib
