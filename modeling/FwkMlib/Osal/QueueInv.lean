import FwkMlib.Osal.LockFreeQueue
import FwkMlib.Lib.RingBuffer

/-!
# What the lock-free queue holds

`Holds q n r xs` : the ring of `q` has `n` message slots, the read offset is that of slot `r`, and the
accepted messages not yet popped are `xs`, each in its own slot. One lemma for each piece of a push
or pop: its result in such a state (`isFull_eq`, `pushCopy₁_eq`, ...) and what the queue holds after
it (`Holds.store`, `Holds.commit`, `Holds.release`). The slots are whole, so the second copies never
have anything to copy.
-/

namespace FwkMlib.Osal
open FwkMlib.Lib

namespace LockFreeQueue

def slot (q : LockFreeQueue) (k : Nat) : List UInt8 := readBytes q.buffer (q.msgSize * k) q.msgSize

/-- The queue holds `xs`, in slots from `r` on. -/
structure Holds (q : LockFreeQueue) (n r : Nat) (xs : List (List UInt8)) : Prop where
  msgSize_pos : 1 ≤ q.msgSize
  totalSize : q.totalSize = q.msgSize * n
  bufferSize : q.bufferSize = q.msgSize * n
  small : q.msgSize * n < 2 ^ 32
  read : q.read = q.msgSize * r
  write : q.write = q.msgSize * ringIdx n r xs.length
  ring : RingBuffer.Holds n q.slot r xs

variable {q : LockFreeQueue} {n r k : Nat} {xs : List (List UInt8)} {x msg : List UInt8}

namespace Holds

theorem slots_pos (h : q.Holds n r xs) : 0 < n := Nat.zero_lt_of_lt h.ring.read_lt

theorem writeIdx_lt (h : q.Holds n r xs) : ringIdx n r xs.length < n := ringIdx_lt h.ring.read_lt _

theorem slot_le (_ : q.Holds n r xs) (hk : k < n) : q.msgSize * k + q.msgSize ≤ q.msgSize * n := by
  rw [← Nat.mul_succ]
  exact Nat.mul_le_mul_left _ hk

/-- Moving an offset on by one message moves the slot on by one. -/
theorem wrap_next (h : q.Holds n r xs) (hk : k < n) :
    q.wrap (u32 (q.msgSize * k + q.msgSize)) = some (q.msgSize * ringIdx n k 1) := by
  have hle := h.slot_le hk
  have hpos : q.totalSize ≠ 0 := by
    rw [h.totalSize]
    exact Nat.ne_of_gt (Nat.mul_pos h.msgSize_pos h.slots_pos)
  unfold wrap u32 ringIdx
  rw [if_neg hpos, Nat.mod_eq_of_lt (Nat.lt_of_le_of_lt hle h.small), h.totalSize, ← Nat.mul_succ,
    Nat.mul_mod_mul_left]

/-- A message is never split across the end of the ring. -/
theorem copyLen_eq (h : q.Holds n r xs) (hk : k < n) : q.copyLen (q.msgSize * k) = q.msgSize := by
  have hle := h.slot_le hk
  have hsmall := h.small
  have hrest : u32 (2 ^ 32 + q.totalSize - q.msgSize * k) = q.msgSize * n - q.msgSize * k := by
    unfold u32
    rw [h.totalSize, show 2 ^ 32 + q.msgSize * n - q.msgSize * k =
      q.msgSize * n - q.msgSize * k + 2 ^ 32 by omega, Nat.add_mod_right, Nat.mod_eq_of_lt (by omega)]
  unfold copyLen
  rw [hrest, if_neg (by omega)]

end Holds

/-! ## The pieces of a push -/

theorem isFull_eq (h : q.Holds n r xs) : q.isFull = some (decide (xs.length + 1 = n)) := by
  have hiff : q.msgSize * ringIdx n (ringIdx n r xs.length) 1 = q.msgSize * r ↔
      xs.length + 1 = n := by
    rw [Nat.mul_right_inj (by have := h.msgSize_pos; omega)]
    exact h.ring.full_iff
  unfold isFull
  rw [h.write, h.wrap_next h.writeIdx_lt, h.read]
  exact congrArg some (decide_eq_decide.2 hiff)

theorem pushCopy₁_eq (h : q.Holds n r xs) (hmsg : q.msgSize ≤ msg.length) :
    q.pushCopy₁ msg =
      some { q with buffer := writeBytes q.buffer q.write (msg.take q.msgSize) } := by
  unfold pushCopy₁ copyIn
  rw [h.write, h.copyLen_eq h.writeIdx_lt, h.bufferSize,
    if_pos ⟨h.slot_le h.writeIdx_lt, hmsg⟩]

theorem pushCopy₂_eq (h : q.Holds n r xs) (msg : List UInt8) : q.pushCopy₂ msg = some q := by
  unfold pushCopy₂
  rw [h.write, h.copyLen_eq h.writeIdx_lt]
  simp

theorem pushAdvance_eq (h : q.Holds n r xs) :
    q.pushAdvance =
      some { q with write := q.msgSize * ringIdx n r (xs.length + 1) } := by
  unfold pushAdvance
  rw [h.write, h.wrap_next h.writeIdx_lt, ringIdx_add]
  rfl

/-- Bytes stored in the write slot leave the messages alone. -/
theorem Holds.store (h : q.Holds n r xs) (hx : x.length = q.msgSize) :
    Holds { q with buffer := writeBytes q.buffer q.write x } n r xs := by
  refine ⟨h.msgSize_pos, h.totalSize, h.bufferSize, h.small, h.read, h.write, ?_⟩
  refine h.ring.write fun k hk => ?_
  show readBytes (writeBytes q.buffer q.write x) (q.msgSize * k) q.msgSize = _
  apply readBytes_writeBytes_of_disjoint
  rw [h.write, hx]
  rcases Nat.lt_or_gt_of_ne hk with hlt | hgt
  · left
    rw [← Nat.mul_succ]
    exact Nat.mul_le_mul_left _ hlt
  · right
    rw [← Nat.mul_succ]
    exact Nat.mul_le_mul_left _ hgt

def writeSlot (q : LockFreeQueue) : List UInt8 := readBytes q.buffer q.write q.msgSize

theorem writeSlot_store (hx : x.length = q.msgSize) :
    writeSlot { q with buffer := writeBytes q.buffer q.write x } = x := by
  have h := readBytes_writeBytes q.buffer q.write x
  rwa [hx] at h

/-- Moving the write offset accepts the message in the write slot. -/
theorem Holds.commit (h : q.Holds n r xs) (hlen : xs.length + 1 < n) :
    Holds { q with write := q.msgSize * ringIdx n r (xs.length + 1) } n r (xs ++ [q.writeSlot]) := by
  refine ⟨h.msgSize_pos, h.totalSize, h.bufferSize, h.small, h.read, ?_, ?_⟩
  · rw [List.length_append, List.length_singleton]
  · refine h.ring.push ?_ hlen
    unfold writeSlot
    rw [h.write]
    rfl

/-! ## The pieces of a pop -/

theorem isEmpty_eq (h : q.Holds n r xs) : q.isEmpty = decide (xs = []) := by
  have hiff : q.msgSize * r = q.msgSize * ringIdx n r xs.length ↔ xs = [] := by
    rw [Nat.mul_right_inj (by have := h.msgSize_pos; omega), eq_comm]
    exact h.ring.empty_iff
  unfold isEmpty
  rw [h.write, h.read, decide_eq_decide.2 hiff]

theorem popCopy₁_eq (h : q.Holds n r (x :: xs)) (hmsg : q.msgSize ≤ msg.length) :
    q.popCopy₁ msg = some (x ++ msg.drop q.msgSize) := by
  unfold popCopy₁ copyOut
  rw [h.read, h.copyLen_eq h.ring.read_lt, h.bufferSize,
    if_pos ⟨h.slot_le h.ring.read_lt, by omega⟩, ← h.ring.head]
  simp [slot]

theorem popCopy₂_eq (h : q.Holds n r xs) (msg : List UInt8) : q.popCopy₂ msg = some msg := by
  unfold popCopy₂
  rw [h.read, h.copyLen_eq h.ring.read_lt]
  simp

theorem popAdvance_eq (h : q.Holds n r xs) :
    q.popAdvance = some { q with read := q.msgSize * ringIdx n r 1 } := by
  unfold popAdvance
  rw [h.read, h.wrap_next h.ring.read_lt]
  rfl

/-- Moving the read offset gives up the first message. -/
theorem Holds.release (h : q.Holds n r (x :: xs)) :
    Holds { q with read := q.msgSize * ringIdx n r 1 } n (ringIdx n r 1) xs := by
  refine ⟨h.msgSize_pos, h.totalSize, h.bufferSize, h.small, rfl, ?_, h.ring.pop⟩
  show q.write = _
  rw [h.write, ringIdx_add, List.length_cons, Nat.add_comm]

theorem Holds.head_length (h : q.Holds n r (x :: xs)) : x.length = q.msgSize := by
  rw [← h.ring.head, slot, length_readBytes]

end LockFreeQueue

theorem osalLockFreeQueueInit_holds {msgSize msgMax : Nat} {q : LockFreeQueue}
    (hsmall : msgSize * msgMax < 2 ^ 32) (hq : osalLockFreeQueueInit msgSize msgMax true = some q) :
    q.msgSize = msgSize ∧ q.Holds msgMax 0 [] := by
  unfold osalLockFreeQueueInit at hq
  split_ifs at hq with h0
  obtain rfl := Option.some.inj hq
  obtain ⟨hs, hm⟩ := not_or.1 h0
  have hu : u32 (msgSize * msgMax) = msgSize * msgMax := Nat.mod_eq_of_lt hsmall
  refine ⟨rfl, Nat.pos_of_ne_zero hs, hu, hu, hsmall, rfl, ?_,
    RingBuffer.Holds.nil (Nat.pos_of_ne_zero hm)⟩
  rw [List.length_nil, ringIdx_zero (Nat.pos_of_ne_zero hm)]
  rfl

end FwkMlib.Osal
