import Mathlib.Data.UInt

/-!
# Serial numbers

Counters of 32 bits that wrap, compared by the sign of their difference. Where two of them are less
than half of the number space apart, the difference is that of the counters (`serialDiff_eq`), and the
comparison is that of the naturals (`serialDiff_neg`, `serialDiff_pos`).
-/

namespace FwkMlib.Lib

/-- The signed difference of two serial numbers. -/
def serialDiff (later earlier : UInt32) : Int := (later - earlier).toInt32.toInt

variable {a b : UInt32}

theorem serialDiff_eq_bmod (a b : UInt32) :
    serialDiff a b = ((a.toNat : Int) - b.toNat).bmod (2 ^ 32) := by
  show (a.toBitVec - b.toBitVec).toInt = _
  rw [BitVec.toInt_sub]
  simp only [BitVec.toInt_eq_toNat_bmod]
  simp

@[simp] theorem serialDiff_self (a : UInt32) : serialDiff a a = 0 := by
  rw [serialDiff_eq_bmod, Int.sub_self]
  rfl

/-- Less than half of the number space apart. -/
def Near (a b : UInt32) : Prop := a.toNat < b.toNat + 2 ^ 31 ∧ b.toNat ≤ a.toNat + 2 ^ 31

theorem serialDiff_eq (h : Near a b) : serialDiff a b = (a.toNat : Int) - b.toNat := by
  obtain ⟨h₁, h₂⟩ := h
  rw [serialDiff_eq_bmod]
  exact Int.bmod_eq_of_le (by omega) (by omega)

theorem serialDiff_neg (h : Near a b) : serialDiff a b < 0 ↔ a.toNat < b.toNat := by
  rw [serialDiff_eq h]
  omega

theorem serialDiff_pos (h : Near a b) : 0 < serialDiff a b ↔ b.toNat < a.toNat := by
  rw [serialDiff_eq h]
  omega

theorem serialDiff_nonneg (h : Near a b) : 0 ≤ serialDiff a b ↔ b.toNat ≤ a.toNat := by
  rw [serialDiff_eq h]
  omega

/-- The end of a window that is not empty lies ahead. -/
theorem serialDiff_add_neg (a : UInt32) (hpos : 0 < b.toNat) (hlt : b.toNat < 2 ^ 31) :
    serialDiff a (a + b) < 0 := by
  have hzero : a - (a + b) = 0 - b := by grind
  have hnear : Near 0 b := ⟨by simp, by simp; omega⟩
  unfold serialDiff
  rw [hzero]
  exact (serialDiff_neg hnear).2 hpos

/-- Numbers of the first half are near each other. -/
theorem near_of_lt (ha : a.toNat < 2 ^ 31) (hb : b.toNat ≤ 2 ^ 31) : Near a b :=
  ⟨by omega, by omega⟩

/-- A counter that does not wrap. -/
theorem toNat_add_one (h : a.toNat + 1 < 2 ^ 32) : (a + 1).toNat = a.toNat + 1 := by
  rw [UInt32.toNat_add]
  exact Nat.mod_eq_of_lt h

end FwkMlib.Lib
