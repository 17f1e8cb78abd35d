import Mathlib.Algebra.Group.Nat.Defs
import Mathlib.Data.Set.BooleanAlgebra
import Mathlib.Order.CompletePartialOrder
import Mathlib.Order.Interval.Set.Basic
import Mathlib.Data.List.GetD

/-!
# Byte memory

A memory is a function from addresses to bytes.

* `readBytes`, `writeBytes` : ranges of bytes; a range written is read back
  (`readBytes_writeBytes`), a disjoint one is unchanged (`readBytes_writeBytes_of_disjoint`);
* `copyBytes` : the start of one object copied to another;
* `bytesLE`, `wordLE` : little-endian words, `read16`, `write16`, `read64`, `write64` in memory;
* `Frame W m m'` : every byte outside `W` is the same in `m` and `m'`.
-/

namespace FwkMlib.Lib

@[ext]
structure Mem where
  byte : Nat → UInt8

instance : CoeFun Mem fun _ => Nat → UInt8 := ⟨Mem.byte⟩

def readBytes (m : Mem) (a n : Nat) : List UInt8 := (List.range n).map fun i => m (a + i)

def writeBytes (m : Mem) (a : Nat) (bs : List UInt8) : Mem where
  byte x := if a ≤ x then bs.getD (x - a) (m x) else m x

@[simp] theorem length_readBytes (m : Mem) (a n : Nat) : (readBytes m a n).length = n := by
  rw [readBytes, List.length_map, List.length_range]

theorem getElem_readBytes {m : Mem} {a n i : Nat} (h : i < (readBytes m a n).length) :
    (readBytes m a n)[i] = m (a + i) := by
  simp [readBytes]

theorem readBytes_congr {m m' : Mem} {a n : Nat} (h : ∀ i < n, m' (a + i) = m (a + i)) :
    readBytes m' a n = readBytes m a n :=
  List.map_congr_left fun i hi => h i (List.mem_range.1 hi)

/-- Equal ranges agree byte by byte. -/
theorem byte_eq_of_readBytes {m m' : Mem} {a n x : Nat} (h : readBytes m' a n = readBytes m a n)
    (hx : a ≤ x) (hx' : x < a + n) : m' x = m x := by
  obtain ⟨i, rfl⟩ := Nat.exists_eq_add_of_le hx
  have hi : i < n := by omega
  have := List.map_inj_left.1 h i (List.mem_range.2 hi)
  exact this

theorem writeBytes_apply (m : Mem) (a x : Nat) (bs : List UInt8) :
    writeBytes m a bs x = if a ≤ x then bs.getD (x - a) (m x) else m x := rfl

theorem writeBytes_of_lt {m : Mem} {a x : Nat} {bs : List UInt8} (h : x < a) :
    writeBytes m a bs x = m x := if_neg (Nat.not_le.2 h)

theorem writeBytes_of_le {m : Mem} {a x : Nat} {bs : List UInt8} (h : a + bs.length ≤ x) :
    writeBytes m a bs x = m x := by
  rw [writeBytes_apply, if_pos (by omega), List.getD_eq_default _ _ (by omega)]

theorem writeBytes_add {m : Mem} {a i : Nat} {bs : List UInt8} (h : i < bs.length) :
    writeBytes m a bs (a + i) = bs[i] := by
  rw [writeBytes_apply, if_pos (Nat.le_add_right a i), Nat.add_sub_cancel_left, List.getD_eq_getElem _ _ h]

theorem readBytes_writeBytes (m : Mem) (a : Nat) (bs : List UInt8) :
    readBytes (writeBytes m a bs) a bs.length = bs := by
  apply List.ext_getElem
  · simp
  · intro i h₁ h₂
    rw [getElem_readBytes, writeBytes_add h₂]

theorem readBytes_writeBytes_of_disjoint {m : Mem} {a b n : Nat} {bs : List UInt8}
    (h : b + n ≤ a ∨ a + bs.length ≤ b) :
    readBytes (writeBytes m a bs) b n = readBytes m b n := by
  refine readBytes_congr fun i hi => ?_
  rcases h with h | h
  · exact writeBytes_of_lt (by omega)
  · exact writeBytes_of_le (by omega)

/-- A part of equal ranges. -/
theorem readBytes_within {m m' : Mem} {a b n k : Nat} (h : readBytes m' a n = readBytes m a n)
    (ha : a ≤ b) (hb : b + k ≤ a + n) : readBytes m' b k = readBytes m b k := by
  apply readBytes_congr
  intro i hi
  apply byte_eq_of_readBytes h
  · omega
  · omega

theorem writeBytes_readBytes (m : Mem) (a n : Nat) : writeBytes m a (readBytes m a n) = m := by
  ext x : 2
  rw [writeBytes_apply]
  split_ifs with h
  · obtain ⟨i, rfl⟩ := Nat.exists_eq_add_of_le h
    rw [Nat.add_sub_cancel_left]
    by_cases hi : i < (readBytes m a n).length
    · rw [List.getD_eq_getElem _ _ hi, getElem_readBytes]
    · rw [List.getD_eq_default _ _ (Nat.le_of_not_lt hi)]
  · rfl

theorem writeBytes_writeBytes {m : Mem} {a : Nat} {bs bs' : List UInt8}
    (h : bs.length = bs'.length) : writeBytes (writeBytes m a bs) a bs' = writeBytes m a bs' := by
  ext x : 2
  by_cases hlt : x < a
  · rw [writeBytes_of_lt hlt, writeBytes_of_lt hlt, writeBytes_of_lt hlt]
  · obtain ⟨i, rfl⟩ := Nat.exists_eq_add_of_le (Nat.le_of_not_lt hlt)
    by_cases hi : i < bs'.length
    · rw [writeBytes_add hi, writeBytes_add hi]
    · rw [writeBytes_of_le (by omega), writeBytes_of_le (by omega), writeBytes_of_le (by omega)]

/-- `n` bytes copied to the start of an object. -/
def copyBytes (dst src : Mem) (n : Nat) : Mem := writeBytes dst 0 (readBytes src 0 n)

theorem readBytes_copyBytes (dst src : Mem) (n : Nat) :
    readBytes (copyBytes dst src n) 0 n = readBytes src 0 n := by
  have h := readBytes_writeBytes dst 0 (readBytes src 0 n)
  rwa [length_readBytes] at h

/-! ## Little-endian words -/

/-- The `n` low bytes of `v`, the lowest first. -/
def bytesLE : Nat → Nat → List UInt8
  | 0, _ => []
  | n + 1, v => UInt8.ofNat v :: bytesLE n (v / 256)

def wordLE : List UInt8 → Nat
  | [] => 0
  | b :: bs => b.toNat + 256 * wordLE bs

@[simp] theorem length_bytesLE (n : Nat) : ∀ v, (bytesLE n v).length = n := by
  induction n with
  | zero => intro v; rfl
  | succ n ih => intro v; rw [bytesLE, List.length_cons, ih]

theorem wordLE_bytesLE (n : Nat) : ∀ v, wordLE (bytesLE n v) = v % 256 ^ n := by
  induction n with
  | zero => intro v; rw [bytesLE, wordLE, Nat.pow_zero, Nat.mod_one]
  | succ n ih =>
    intro v
    rw [bytesLE, wordLE, ih, Nat.pow_succ, Nat.mul_comm (256 ^ n) 256, Nat.mod_mul]
    rfl

theorem bytesLE_wordLE : ∀ bs : List UInt8, bytesLE bs.length (wordLE bs) = bs
  | [] => rfl
  | b :: bs => by
    have hb : b.toNat < 256 := b.toNat_lt
    have hdiv : (b.toNat + 256 * wordLE bs) / 256 = wordLE bs := by omega
    have hmod : UInt8.ofNat (b.toNat + 256 * wordLE bs) = b := by
      apply UInt8.toNat_inj.1
      rw [UInt8.toNat_ofNat']
      omega
    rw [List.length_cons, wordLE, bytesLE, hdiv, hmod, bytesLE_wordLE bs]

theorem wordLE_lt : ∀ bs : List UInt8, wordLE bs < 256 ^ bs.length
  | [] => Nat.one_pos
  | b :: bs => by
    have hb : b.toNat < 256 := b.toNat_lt
    have ih := wordLE_lt bs
    rw [wordLE, List.length_cons, Nat.pow_succ]
    omega

def read64 (m : Mem) (a : Nat) : Nat := wordLE (readBytes m a 8)

def write64 (m : Mem) (a v : Nat) : Mem := writeBytes m a (bytesLE 8 v)

def read16 (m : Mem) (a : Nat) : Nat := wordLE (readBytes m a 2)

def write16 (m : Mem) (a v : Nat) : Mem := writeBytes m a (bytesLE 2 v)

theorem read16_lt (m : Mem) (a : Nat) : read16 m a < 2 ^ 16 := by
  have h := wordLE_lt (readBytes m a 2)
  rwa [length_readBytes] at h

theorem read16_write16 (m : Mem) (a v : Nat) : read16 (write16 m a v) a = v % 2 ^ 16 := by
  have h := readBytes_writeBytes m a (bytesLE 2 v)
  rw [length_bytesLE] at h
  rw [read16, write16, h, wordLE_bytesLE]
  rfl

theorem read16_write16_of_disjoint {m : Mem} {a b v : Nat} (h : b + 2 ≤ a ∨ a + 2 ≤ b) :
    read16 (write16 m a v) b = read16 m b := by
  rw [read16, read16, write16, readBytes_writeBytes_of_disjoint (by rwa [length_bytesLE])]

theorem read16_eq {m m' : Mem} {a n : Nat} (b : Nat) (h : readBytes m' a n = readBytes m a n)
    (ha : a ≤ b) (hb : b + 2 ≤ a + n) : read16 m' b = read16 m b := by
  rw [read16, read16, readBytes_within h ha hb]

theorem write16_read16 (m : Mem) (a : Nat) : write16 m a (read16 m a) = m := by
  have h := bytesLE_wordLE (readBytes m a 2)
  rw [length_readBytes] at h
  rw [write16, read16, h, writeBytes_readBytes]

theorem write16_write16 (m : Mem) (a v w : Nat) :
    write16 (write16 m a v) a w = write16 m a w := by
  apply writeBytes_writeBytes
  rw [length_bytesLE, length_bytesLE]

theorem read64_write64 (m : Mem) (a v : Nat) : read64 (write64 m a v) a = v % 2 ^ 64 := by
  have h := readBytes_writeBytes m a (bytesLE 8 v)
  rw [length_bytesLE] at h
  rw [read64, write64, h, wordLE_bytesLE]
  rfl

theorem read64_write64_of_disjoint {m : Mem} {a b v : Nat} (h : b + 8 ≤ a ∨ a + 8 ≤ b) :
    read64 (write64 m a v) b = read64 m b := by
  rw [read64, read64, write64, readBytes_writeBytes_of_disjoint (by rwa [length_bytesLE])]

theorem read64_eq_iff {m : Mem} {a v : Nat} (hv : v < 2 ^ 64) :
    read64 m a = v ↔ readBytes m a 8 = bytesLE 8 v := by
  refine ⟨fun h => ?_, fun h => ?_⟩
  · have hb := bytesLE_wordLE (readBytes m a 8)
    rw [length_readBytes] at hb
    rw [← hb, ← h]
    rfl
  · rw [read64, h, wordLE_bytesLE]
    exact Nat.mod_eq_of_lt hv

/-- The bytes of a word are determined by its value. -/
theorem readBytes_eq_of_read64 {m m' : Mem} {a b : Nat} (h : read64 m' b = read64 m a) :
    readBytes m' b 8 = readBytes m a 8 := by
  have hb := bytesLE_wordLE (readBytes m a 8)
  have hb' := bytesLE_wordLE (readBytes m' b 8)
  rw [length_readBytes] at hb hb'
  rw [← hb, ← hb']
  exact congrArg (bytesLE 8) h

theorem readBytes_write64 (m : Mem) (a v : Nat) : readBytes (write64 m a v) a 8 = bytesLE 8 v := by
  have h := readBytes_writeBytes m a (bytesLE 8 v)
  rwa [length_bytesLE] at h

theorem readBytes_write64_of_disjoint {m : Mem} {a b n v : Nat} (h : b + n ≤ a ∨ a + 8 ≤ b) :
    readBytes (write64 m a v) b n = readBytes m b n :=
  readBytes_writeBytes_of_disjoint (by rwa [length_bytesLE])

theorem read64_congr {m m' : Mem} {a : Nat} (h : ∀ i < 8, m' (a + i) = m (a + i)) :
    read64 m' a = read64 m a := by
  rw [read64, read64, readBytes_congr h]

/-! ## Frames -/

/-- Every byte outside `W` is the same in both memories. -/
def Frame (W : Set Nat) (m m' : Mem) : Prop := ∀ x, x ∉ W → m' x = m x

/-- The addresses of `n` bytes from `a` on. -/
def bytesAt (a n : Nat) : Set Nat := Set.Ico a (a + n)

theorem mem_bytesAt {a n x : Nat} : x ∈ bytesAt a n ↔ a ≤ x ∧ x < a + n := Iff.rfl

/-- A store hides what was there before. -/
theorem writeBytes_congr {m m' : Mem} {a x : Nat} {bs : List UInt8}
    (h : x ∉ bytesAt a bs.length → m' x = m x) : writeBytes m' a bs x = writeBytes m a bs x := by
  rw [writeBytes_apply, writeBytes_apply]
  by_cases hx : x ∈ bytesAt a bs.length
  · rw [mem_bytesAt] at hx
    rw [if_pos hx.1, if_pos hx.1, List.getD_eq_getElem _ _ (by omega),
      List.getD_eq_getElem _ _ (by omega)]
  · rw [h hx]

theorem readBytes_write16_congr {m m' : Mem} {b n : Nat} (a v : Nat)
    (h : readBytes m' b n = readBytes m b n) :
    readBytes (write16 m' a v) b n = readBytes (write16 m a v) b n := by
  apply readBytes_congr
  intro i hi
  apply writeBytes_congr
  intro _
  exact byte_eq_of_readBytes h (Nat.le_add_right b i) (Nat.add_lt_add_left hi b)

theorem write64_congr {m m' : Mem} {a x v : Nat} (h : x ∉ bytesAt a 8 → m' x = m x) :
    write64 m' a v x = write64 m a v x :=
  writeBytes_congr (by rwa [length_bytesLE])

namespace Frame

variable {W W' : Set Nat} {m m' m'' : Mem}

theorem refl (W : Set Nat) (m : Mem) : Frame W m m := fun _ _ => rfl

theorem trans (h : Frame W m m') (h' : Frame W' m' m'') : Frame (W ∪ W') m m'' := by
  intro x hx
  rw [h' x fun hw => hx (.inr hw), h x fun hw => hx (.inl hw)]

theorem trans_self (h : Frame W m m') (h' : Frame W m' m'') : Frame W m m'' := fun x hx => by
  rw [h' x hx, h x hx]

theorem mono (h : Frame W m m') (hW : W ⊆ W') : Frame W' m m' := fun x hx => h x fun hw => hx (hW hw)

theorem writeBytes (m : Mem) (a : Nat) (bs : List UInt8) :
    Frame (bytesAt a bs.length) m (writeBytes m a bs) := by
  intro x hx
  by_cases h : x < a
  · exact writeBytes_of_lt h
  · exact writeBytes_of_le (Nat.le_of_not_lt fun hlt => hx ⟨Nat.le_of_not_lt h, hlt⟩)

theorem write64 (m : Mem) (a v : Nat) : Frame (bytesAt a 8) m (write64 m a v) := by
  have h := Frame.writeBytes m a (bytesLE 8 v)
  rwa [length_bytesLE] at h

end Frame

end FwkMlib.Lib
