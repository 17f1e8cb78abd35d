import FwkMlib.Osal.MqInv

/-!
# Senders and receivers on one message queue

`Mq.Reachable.safe` : in every state that any interleaving of sends and receives reaches, the bytes a
send is about to write belong to no message in the queue, a receive only copies a whole message, the
delivered messages are the first accepted ones in their order, and exactly the receives that return
`OSAL_API_OK` have taken one.
-/

namespace FwkMlib.Osal
open FwkMlib.Lib

/-- The offset of the `j`-th byte of the `k`-th message in the queue. -/
def LockFreeQueue.byteAt (q : LockFreeQueue) (k j : Nat) : Nat :=
  (q.read + k * q.msgSize + j) % q.totalSize

def MqShared.pendingBytes (sh : MqShared) : Set Nat :=
  {b | ∃ k < sh.pending.length, ∃ j < sh.rawQueue.msgSize, b = sh.rawQueue.byteAt k j}

def Call.onQueue : Call → Bool
  | .send pc _ => pc ∈ [.testFull, .copy₁, .copy₂, .advance]
  | .recv pc _ _ => pc ∈ [.testEmpty, .copy₁, .copy₂, .advance]
  | .idle => false

namespace Mq

/-- What no interleaving may break. -/
structure Safe (s : Mq) : Prop where
  producer₁ : ∀ i msg, s.calls i = .send .copy₁ msg →
    Disjoint (bytesAt s.sh.rawQueue.write (s.sh.rawQueue.copyLen s.sh.rawQueue.write))
      s.sh.pendingBytes
  producer₂ : ∀ i msg, s.calls i = .send .copy₂ msg →
    Disjoint (bytesAt 0 (s.sh.rawQueue.msgSize - s.sh.rawQueue.copyLen s.sh.rawQueue.write))
      s.sh.pendingBytes
  stored : ∀ k, (h : k < s.sh.pending.length) → s.sh.pending[k] =
    (List.range s.sh.rawQueue.msgSize).map fun j => s.sh.rawQueue.buffer (s.sh.rawQueue.byteAt k j)
  consumer : ∀ i pc timeoutMs msg, s.calls i = .recv pc timeoutMs msg →
    pc = .copy₁ ∨ pc = .copy₂ ∨ pc = .advance → ∃ x rest, s.sh.pending = x :: rest ∧
      readBytes s.sh.rawQueue.buffer s.sh.rawQueue.read
          (s.sh.rawQueue.copyLen s.sh.rawQueue.read) ++
        readBytes s.sh.rawQueue.buffer 0
          (s.sh.rawQueue.msgSize - s.sh.rawQueue.copyLen s.sh.rawQueue.read) = x ∧
      (pc = .advance → msg.take s.sh.rawQueue.msgSize = x)
  fifo : s.sh.popped.map Prod.snd <+: s.sh.accepted.map Prod.snd
  once : (s.sh.popped.map Prod.fst).Nodup ∧ (s.sh.accepted.map Prod.fst).Nodup
  accepted : ∀ i x, (i, x) ∈ s.sh.accepted →
    ∃ pc msg, s.calls i = .send pc msg ∧ x = msg.take s.sh.rawQueue.msgSize
  returned : ∀ i ret timeoutMs msg, s.calls i = .recv (.returned ret) timeoutMs msg →
    (ret = OSAL_API_OK → (i, msg.take s.sh.rawQueue.msgSize) ∈ s.sh.popped) ∧
    (ret ≠ OSAL_API_OK → i ∉ s.sh.popped.map Prod.fst)
  noFault : ∀ i, (s.calls i).onQueue → ∃ res, (s.calls i).step s.sh i none = some res

end Mq

namespace LockFreeQueue.Holds

variable {q : LockFreeQueue} {n r : Nat} {xs : List (List UInt8)}

theorem byteAt_eq (h : q.Holds n r xs) (k : Nat) {j : Nat} (hj : j < q.msgSize) :
    q.byteAt k j = q.msgSize * ringIdx n r k + j := by
  have hlt : q.msgSize * ringIdx n r k + j < q.msgSize * n := by
    have := h.slot_le (ringIdx_lt h.ring.read_lt k)
    omega
  have hsum : q.msgSize * r + k * q.msgSize + j =
      q.msgSize * n * ((r + k) / n) + (q.msgSize * ringIdx n r k + j) := by
    have hdiv : q.msgSize * (r + k) = q.msgSize * (n * ((r + k) / n) + (r + k) % n) := by
      rw [Nat.div_add_mod]
    rw [Nat.mul_add, Nat.mul_add, ← Nat.mul_assoc] at hdiv
    rw [Nat.mul_comm k, hdiv, ringIdx, Nat.add_assoc]
  unfold byteAt
  rw [h.read, h.totalSize, hsum, Nat.mul_add_mod, Nat.mod_eq_of_lt hlt]

theorem write_disjoint (h : q.Holds n r xs) :
    Disjoint (bytesAt q.write (q.copyLen q.write))
      {b | ∃ k < xs.length, ∃ j < q.msgSize, b = q.byteAt k j} := by
  rw [h.write, h.copyLen_eq h.writeIdx_lt, Set.disjoint_left]
  rintro b ⟨hle, hlt⟩ ⟨k, hk, j, hj, rfl⟩
  rw [h.byteAt_eq k hj] at hle hlt
  apply h.ring.writeIdx_ne hk
  have hpos := h.msgSize_pos
  rcases Nat.lt_trichotomy (ringIdx n r k) (ringIdx n r xs.length) with hlt' | heq | hgt
  · have := Nat.mul_le_mul_left q.msgSize (Nat.succ_le_of_lt hlt')
    rw [Nat.mul_succ] at this
    omega
  · exact heq
  · have := Nat.mul_le_mul_left q.msgSize (Nat.succ_le_of_lt hgt)
    rw [Nat.mul_succ] at this
    omega

theorem stored (h : q.Holds n r xs) {k : Nat} (hk : k < xs.length) :
    xs[k] = (List.range q.msgSize).map fun j => q.buffer (q.byteAt k j) := by
  rw [← h.ring.get k hk]
  exact List.map_congr_left fun j hj => by rw [h.byteAt_eq k (List.mem_range.1 hj)]

end LockFreeQueue.Holds

/-- The steps of the lock-free queue never fault. -/
theorem CallInv.noFault {n : Nat} {sh : MqShared} {i : Nat} {c : Call} (h : sh.Inv n)
    (hc : CallInv n sh i c) (hq : c.onQueue) : ∃ res, c.step sh i none = some res := by
  obtain ⟨r, hr⟩ := h.holds
  cases c with
  | idle => cases hq
  | send pc msg =>
    have hpc : pc = .testFull ∨ pc = .copy₁ ∨ pc = .copy₂ ∨ pc = .advance := by
      simpa [Call.onQueue] using hq
    unfold Call.step sendStep
    rcases hpc with rfl | rfl | rfl | rfl
    · simp [LockFreeQueue.isFull_eq hr]
    · simp [LockFreeQueue.pushCopy₁_eq hr (hc.room msg rfl)]
    · simp [LockFreeQueue.pushCopy₂_eq hr]
    · simp [LockFreeQueue.pushAdvance_eq hr]
  | recv pc timeoutMs msg =>
    have hpc : pc = .testEmpty ∨ pc = .copy₁ ∨ pc = .copy₂ ∨ pc = .advance := by
      simpa [Call.onQueue] using hq
    unfold Call.step recvStep
    rcases hpc with rfl | rfl | rfl | rfl
    · by_cases he : sh.rawQueue.isEmpty
      · by_cases h0 : timeoutMs = 0 <;> simp [he, h0]
      · simp [he]
    · obtain ⟨x, rest, hx⟩ := List.exists_cons_of_ne_nil hc.progress
      rw [hx] at hr
      simp [LockFreeQueue.popCopy₁_eq hr (hc.room msg rfl)]
    · simp [LockFreeQueue.popCopy₂_eq hr]
    · simp [LockFreeQueue.popAdvance_eq hr]

theorem mem_fst_iff {l : List (Nat × List UInt8)} {i : Nat} :
    i ∈ l.map Prod.fst ↔ ∃ x, (i, x) ∈ l := by
  simp

/-- **Interleaved sends and receives**: every reachable state of the mq is safe. -/
theorem Mq.Reachable.safe {msgSize msgMax : Nat} {q : LockFreeQueue}
    (hsmall : msgSize * msgMax < 2 ^ 32)
    (hq : osalLockFreeQueueInit msgSize msgMax true = some q) {s : Mq} (h : Mq.Reachable q s) :
    s.Safe := by
  have hinv := h.inv hsmall hq
  obtain ⟨r, hr⟩ := hinv.shared.holds
  refine ⟨fun i msg hi => hr.write_disjoint, fun i msg hi => ?_, fun k hk => hr.stored hk,
    fun i pc timeoutMs msg hi hpc => ?_, ⟨s.sh.pending, hinv.shared.log.symm⟩,
    ⟨hinv.shared.poppedOnce, hinv.shared.acceptedOnce⟩, fun i x hx => ?_,
    fun i ret timeoutMs msg hi => ⟨fun hret => ?_, fun hret hmem => ?_⟩,
    fun i hq => (hinv.calls i).noFault hinv.shared hq⟩
  · rw [hr.write, hr.copyLen_eq hr.writeIdx_lt, Nat.sub_self]
    simp [bytesAt]
  · have hprog := (hinv.calls i).progress
    rw [hi] at hprog
    have hcons : ∃ x rest, s.sh.pending = x :: rest ∧
        (pc = .advance → msg.take s.sh.rawQueue.msgSize = x) := by
      rcases hpc with rfl | rfl | rfl
      · obtain ⟨x, rest, hx⟩ := List.exists_cons_of_ne_nil hprog
        exact ⟨x, rest, hx, nofun⟩
      · obtain ⟨rest, hx⟩ := hprog
        exact ⟨_, rest, hx, nofun⟩
      · obtain ⟨rest, hx⟩ := hprog
        exact ⟨_, rest, hx, fun _ => rfl⟩
    obtain ⟨x, rest, hx, hmsg⟩ := hcons
    refine ⟨x, rest, hx, ?_, hmsg⟩
    rw [hx] at hr
    rw [hr.read, hr.copyLen_eq hr.ring.read_lt, Nat.sub_self, ← hr.ring.head]
    exact List.append_nil _
  · obtain ⟨m, hm, rfl⟩ := ((hinv.calls i).sent x).1 hx
    cases hc : s.calls i with
    | idle => rw [hc] at hm; cases hm
    | recv pc timeoutMs msg => rw [hc] at hm; cases hm
    | send pc msg =>
      refine ⟨pc, msg, rfl, ?_⟩
      rw [hc] at hm
      have hmsg : m = msg := by
        cases pc with
        | returned ret =>
          by_cases h0 : ret = OSAL_API_OK
          · rw [Call.sent, if_pos h0] at hm
            exact (Option.some.inj hm).symm
          · rw [Call.sent, if_neg h0] at hm
            cases hm
        | unlockW | lockR | signal | unlockR => exact (Option.some.inj hm).symm
        | _ => cases hm
      rw [hmsg]
  · refine ((hinv.calls i).received _).2 ⟨msg, ?_, rfl⟩
    rw [hi, Call.received, if_pos hret]
  · obtain ⟨x, hx⟩ := mem_fst_iff.1 hmem
    obtain ⟨m, hm, -⟩ := ((hinv.calls i).received x).1 hx
    rw [hi, Call.received, if_neg hret] at hm
    cases hm

/-- A message on its way: one sender between its copies, one receiver blocked. -/
theorem Mq.Reachable.safe_copying : ∃ q s, osalLockFreeQueueInit 1 2 true = some q ∧
    Mq.run [.recv 1 (some [0]) 1 OSAL_WAITFOREVER, .call 1 none, .call 1 none, .call 1 none,
      .send 0 (some [7]) 1, .call 0 none, .call 0 none, .call 0 none] (Mq.init q) = some s ∧
    s.Safe := by
  obtain ⟨q, hq⟩ : ∃ q, osalLockFreeQueueInit 1 2 true = some q := ⟨_, rfl⟩
  obtain ⟨s, hs⟩ : ∃ s, Mq.run [.recv 1 (some [0]) 1 OSAL_WAITFOREVER, .call 1 none, .call 1 none,
      .call 1 none, .send 0 (some [7]) 1, .call 0 none, .call 0 none, .call 0 none]
      (Mq.init q) = some s := by
    cases hq
    exact ⟨_, rfl⟩
  exact ⟨q, s, hq, hs, (Mq.Reachable.init.run hs).safe (by decide : 1 * 2 < 2 ^ 32) hq⟩

end FwkMlib.Osal
