import FwkMlib.Osal.QueueRun
import FwkMlib.Lib.Stride

/-!
# Where the copies of the queue go

The product `msg_size * msg_max` is taken modulo `2 ^ 32`; it is what is allocated and what the
offsets are reduced by.

* `LockFreeQueue.push_inside`, `push_outside`, `pop_inside` : one call, by where its offset lies;
* `LockFreeQueue.Safe` : no sequence of calls divides by zero, copies outside the buffer or leaves an
  offset outside it;
* `RingFits` : the sizes for which that is so (`queue_safe_iff`);
* `queue_unsafe` : two products that wrap.
-/

namespace FwkMlib.Osal
open FwkMlib.Lib

namespace LockFreeQueue

variable {q : LockFreeQueue} {msg : List UInt8} {pos : Nat}

def advance (q : LockFreeQueue) (pos : Nat) : Nat := u32 (pos + q.msgSize) % q.totalSize

/-- A buffer as `osal_lock_free_queue_init` sizes it, and not empty. -/
structure Sized (q : LockFreeQueue) : Prop where
  pos : 0 < q.totalSize
  lt : q.totalSize < 2 ^ 32
  buffer : q.bufferSize = q.totalSize

theorem Sized.wrap_eq (h : q.Sized) (a : Nat) : q.wrap a = some (a % q.totalSize) :=
  if_neg (Nat.ne_of_gt h.pos)

theorem Sized.advance_lt (h : q.Sized) (pos : Nat) : q.advance pos < q.totalSize :=
  Nat.mod_lt _ h.pos

theorem Sized.copyLen_eq (h : q.Sized) (hp : pos < q.totalSize) :
    q.copyLen pos = min (q.totalSize - pos) q.msgSize := by
  have hlt := h.lt
  have hrest : u32 (2 ^ 32 + q.totalSize - pos) = q.totalSize - pos := by
    unfold u32
    omega
  unfold copyLen
  simp only [hrest]
  split_ifs <;> omega

theorem Sized.isFull_eq (h : q.Sized) : q.isFull = some (decide (q.advance q.write = q.read)) := by
  unfold isFull
  rw [h.wrap_eq]
  rfl

/-! ## One call -/

theorem push_full (h : q.Sized) (hf : q.advance q.write = q.read) (msg : List UInt8) :
    osalLockFreeQueuePush q (some msg) = some (-1, q) := by
  unfold osalLockFreeQueuePush
  simp [h.isFull_eq, hf]

/-- A message no part of which goes beyond the end of the buffer, round the end at most once. -/
theorem push_inside (h : q.Sized) (hw : q.write < q.totalSize)
    (hb : q.write + q.msgSize ≤ 2 * q.totalSize) (hmsg : q.msgSize ≤ msg.length)
    (hf : q.advance q.write ≠ q.read) :
    ∃ buffer, osalLockFreeQueuePush q (some msg) =
      some (0, { q with buffer := buffer, write := q.advance q.write }) := by
  have hbuf := h.buffer
  have hc := h.copyLen_eq hw
  have h₁ : q.pushCopy₁ msg = some { q with
      buffer := writeBytes q.buffer q.write (msg.take (q.copyLen q.write)) } := by
    unfold pushCopy₁ copyIn
    rw [if_pos (by omega)]
  have h₂ : ∀ b, ∃ b', pushCopy₂ { q with buffer := b } msg = some { q with buffer := b' } := by
    intro b
    have hc' : copyLen { q with buffer := b } q.write = q.copyLen q.write := rfl
    unfold pushCopy₂ copyIn
    simp only [hc', List.length_drop]
    split_ifs with h₀ hin
    · exact ⟨_, rfl⟩
    · exact absurd ⟨by omega, by omega⟩ hin
    · exact ⟨b, rfl⟩
  obtain ⟨b, h₂⟩ := h₂ (writeBytes q.buffer q.write (msg.take (q.copyLen q.write)))
  have h₃ : pushAdvance { q with buffer := b } =
      some { q with buffer := b, write := q.advance q.write } := by
    have hs : Sized { q with buffer := b } := ⟨h.pos, h.lt, h.buffer⟩
    unfold pushAdvance
    rw [hs.wrap_eq]
    rfl
  refine ⟨b, ?_⟩
  unfold osalLockFreeQueuePush
  simp only [h.isFull_eq, hf, h₁, h₂, h₃, decide_false, Option.bind_eq_bind, Option.bind_some,
    Bool.false_eq_true, if_false]

/-- A message longer than the bytes from its offset to the end of the buffer and the whole buffer. -/
theorem push_outside (h : q.Sized) (hw : q.write < q.totalSize)
    (hb : 2 * q.totalSize < q.write + q.msgSize) (hf : q.advance q.write ≠ q.read)
    (msg : List UInt8) : osalLockFreeQueuePush q (some msg) = none := by
  have hbuf := h.buffer
  have hc := h.copyLen_eq hw
  have h₂ : ∀ b, pushCopy₂ { q with buffer := b } msg = none := by
    intro b
    have hc' : copyLen { q with buffer := b } q.write = q.copyLen q.write := rfl
    unfold pushCopy₂ copyIn
    simp only [hc']
    rw [if_pos (by omega), if_neg (by omega)]
  unfold osalLockFreeQueuePush
  simp only [h.isFull_eq, hf, decide_false, Option.bind_eq_bind, Option.bind_some,
    Bool.false_eq_true, if_false]
  unfold pushCopy₁ copyIn
  split_ifs
  · simp only [Option.bind_some, h₂, Option.bind_none]
  · rfl

theorem pop_empty (he : q.read = q.write) (msg : List UInt8) (n : Nat) :
    osalLockFreeQueuePop q (some msg) n = some (-1, some msg, q) := by
  unfold osalLockFreeQueuePop isEmpty
  simp [he]

theorem pop_inside (h : q.Sized) (hr : q.read < q.totalSize)
    (hb : q.read + q.msgSize ≤ 2 * q.totalSize) (hmsg : q.msgSize ≤ msg.length)
    (he : q.read ≠ q.write) (n : Nat) :
    ∃ out, osalLockFreeQueuePop q (some msg) n =
      some (0, some out, { q with read := q.advance q.read }) := by
  have hbuf := h.buffer
  have hc := h.copyLen_eq hr
  have hlen : ∀ pos m : Nat, (readBytes q.buffer pos m).length = m := fun pos m => length_readBytes _ _ _
  have h₁ : ∃ out, q.popCopy₁ msg = some out ∧ out.length = msg.length := by
    unfold popCopy₁ copyOut
    rw [if_pos (by omega)]
    refine ⟨_, rfl, ?_⟩
    simp only [List.length_append, List.length_take, List.length_drop, hlen]
    omega
  obtain ⟨out₁, h₁, hlen₁⟩ := h₁
  have h₂ : ∃ out, q.popCopy₂ out₁ = some out := by
    unfold popCopy₂ copyOut
    simp only
    split_ifs with h₀ hin
    · exact ⟨_, rfl⟩
    · exact absurd ⟨by omega, by omega⟩ hin
    · exact ⟨_, rfl⟩
  obtain ⟨out₂, h₂⟩ := h₂
  have h₃ : q.popAdvance = some { q with read := q.advance q.read } := by
    unfold popAdvance
    rw [h.wrap_eq]
    rfl
  refine ⟨out₂, ?_⟩
  unfold osalLockFreeQueuePop isEmpty
  simp only [he, h₁, h₂, h₃, decide_false, Option.bind_eq_bind, Option.bind_some,
    Bool.false_eq_true, if_false]

/-! ## Sequences of calls -/

/-- Every sequence of calls with buffers of at least `msg_size` bytes runs to its end, the offsets in
the buffer. -/
def Safe (q : LockFreeQueue) : Prop :=
  ∀ cs : List QueueCall, (∀ c ∈ cs, q.msgSize ≤ c.bufferLength) →
    ∃ l, QueueLog.run cs ⟨q, [], []⟩ = some l ∧
      l.queue.read < l.queue.totalSize ∧ l.queue.write < l.queue.totalSize

/-- The queue as it was made, but for its offsets and the bytes in it. -/
structure Alike (q q' : LockFreeQueue) : Prop where
  msgSize : q'.msgSize = q.msgSize
  totalSize : q'.totalSize = q.totalSize
  bufferSize : q'.bufferSize = q.bufferSize

theorem Alike.refl (q : LockFreeQueue) : q.Alike q := ⟨rfl, rfl, rfl⟩

theorem Alike.sized {q' : LockFreeQueue} (h : q.Alike q') (hs : q.Sized) : q'.Sized :=
  ⟨by rw [h.totalSize]; exact hs.pos, by rw [h.totalSize]; exact hs.lt,
    by rw [h.bufferSize, h.totalSize]; exact hs.buffer⟩

theorem Alike.advance {q' : LockFreeQueue} (h : q.Alike q') (pos : Nat) :
    q'.advance pos = q.advance pos := by
  unfold LockFreeQueue.advance
  rw [h.msgSize, h.totalSize]

/-- Offsets that calls may reach from offset 0, at which a message that is taken lies inside. -/
structure Offsets (q : LockFreeQueue) (P : Nat → Prop) : Prop where
  zero : P 0
  lt : ∀ pos, P pos → pos < q.totalSize
  next : ∀ pos, P pos → P (q.advance pos)
  push : ∀ pos pos', P pos → P pos' → q.advance pos ≠ pos' → pos + q.msgSize ≤ 2 * q.totalSize
  pop : ∀ pos pos', P pos → P pos' → pos ≠ pos' → pos + q.msgSize ≤ 2 * q.totalSize

section call

variable {l : QueueLog} {ret : Int} {q' : LockFreeQueue}

theorem call_of_push (hp : osalLockFreeQueuePush l.queue (some msg) = some (ret, q')) :
    ∃ l', l.call (.push msg) = some (ret, l') ∧ l'.queue = q' :=
  ⟨_, by rw [QueueLog.call, hp]; rfl, rfl⟩

theorem call_of_push_none (hp : osalLockFreeQueuePush l.queue (some msg) = none) :
    l.call (.push msg) = none := by
  rw [QueueLog.call, hp]
  rfl

theorem call_of_pop {out : Option (List UInt8)}
    (hp : osalLockFreeQueuePop l.queue (some msg) msg.length = some (ret, out, q')) :
    ∃ l', l.call (.pop msg) = some (ret, l') ∧ l'.queue = q' :=
  ⟨_, by rw [QueueLog.call, hp]; rfl, rfl⟩

end call

theorem Offsets.call {P : Nat → Prop} (ho : q.Offsets P) (hs : q.Sized) {l : QueueLog}
    (ha : q.Alike l.queue) (hr : P l.queue.read) (hw : P l.queue.write) (c : QueueCall)
    (hc : q.msgSize ≤ c.bufferLength) :
    ∃ ret l', l.call c = some (ret, l') ∧ q.Alike l'.queue ∧ P l'.queue.read ∧
      P l'.queue.write := by
  have hs' := ha.sized hs
  have hadv := ha.advance
  rw [← ha.msgSize] at hc
  have hlt : ∀ pos, P pos → pos < l.queue.totalSize := by
    rw [ha.totalSize]
    exact ho.lt
  cases c with
  | push msg =>
    by_cases hf : l.queue.advance l.queue.write = l.queue.read
    · obtain ⟨l', he, hl⟩ := call_of_push (push_full hs' hf msg)
      exact ⟨_, l', he, hl ▸ ha, hl ▸ hr, hl ▸ hw⟩
    · have hb := ho.push _ _ hw hr (by rw [← hadv]; exact hf)
      rw [← ha.msgSize, ← ha.totalSize] at hb
      obtain ⟨buffer, hp⟩ := push_inside hs' (hlt _ hw) hb hc hf
      obtain ⟨l', he, hl⟩ := call_of_push hp
      refine ⟨_, l', he, hl ▸ ⟨ha.msgSize, ha.totalSize, ha.bufferSize⟩, hl ▸ hr, ?_⟩
      rw [hl]
      show P (l.queue.advance l.queue.write)
      rw [hadv]
      exact ho.next _ hw
  | pop msg =>
    by_cases he : l.queue.read = l.queue.write
    · obtain ⟨l', he, hl⟩ := call_of_pop (pop_empty he msg msg.length)
      exact ⟨_, l', he, hl ▸ ha, hl ▸ hr, hl ▸ hw⟩
    · have hb := ho.pop _ _ hr hw he
      rw [← ha.msgSize, ← ha.totalSize] at hb
      obtain ⟨out, hp⟩ := pop_inside hs' (hlt _ hr) hb hc he msg.length
      obtain ⟨l', he, hl⟩ := call_of_pop hp
      refine ⟨_, l', he, hl ▸ ⟨ha.msgSize, ha.totalSize, ha.bufferSize⟩, ?_, hl ▸ hw⟩
      rw [hl]
      show P (l.queue.advance l.queue.read)
      rw [hadv]
      exact ho.next _ hr

theorem Offsets.run {P : Nat → Prop} (ho : q.Offsets P) (hs : q.Sized) (cs : List QueueCall) :
    ∀ {l : QueueLog}, q.Alike l.queue → P l.queue.read → P l.queue.write →
      (∀ c ∈ cs, q.msgSize ≤ c.bufferLength) →
      ∃ l', QueueLog.run cs l = some l' ∧ q.Alike l'.queue ∧ P l'.queue.read ∧
        P l'.queue.write := by
  induction cs with
  | nil => exact fun ha hr hw _ => ⟨_, rfl, ha, hr, hw⟩
  | cons c cs ih =>
    intro l ha hr hw hc
    obtain ⟨ret, l₁, he, ha₁, hr₁, hw₁⟩ := ho.call hs ha hr hw c (hc c List.mem_cons_self)
    obtain ⟨l₂, he₂, h₂⟩ := ih ha₁ hr₁ hw₁ fun c' hc' => hc c' (List.mem_cons_of_mem c hc')
    refine ⟨l₂, ?_, h₂⟩
    rw [QueueLog.run, he]
    exact he₂

theorem Offsets.stays {P : Nat → Prop} (ho : q.Offsets P) (hs : q.Sized) (hr : q.read = 0)
    (hw : q.write = 0) : q.Safe := by
  intro cs hc
  obtain ⟨l, he, ha, hr', hw'⟩ := ho.run hs cs (l := ⟨q, [], []⟩) (.refl q) (hr ▸ ho.zero)
    (hw ▸ ho.zero) hc
  exact ⟨l, he, by rw [ha.totalSize]; exact ho.lt _ hr', by rw [ha.totalSize]; exact ho.lt _ hw'⟩

end LockFreeQueue

/-! ## The sizes -/

/-- The number of bytes after which the offsets of messages longer than the buffer come round. -/
def offsetPeriod (total : Nat) : Nat := min total (2 ^ 32 - total)

/-- The sizes for which every copy stays in the buffer of `total` bytes: a message is no longer than
the buffer, or the queue is always full, or the offset never comes to where a message would go round
the end twice. -/
def RingFits (msgSize total : Nat) : Prop :=
  0 < total ∧ (msgSize ≤ total ∨ total ∣ msgSize ∨
    offsetPeriod total + (msgSize - total) ≤
      total + Nat.gcd (msgSize - total) (offsetPeriod total))

instance (msgSize total : Nat) : Decidable (RingFits msgSize total) :=
  inferInstanceAs (Decidable (_ ∧ _))

section period

variable {q : LockFreeQueue} {k : Nat}

theorem LockFreeQueue.Sized.advance_step (h : q.Sized) (hS : q.totalSize < q.msgSize)
    (hS' : q.msgSize < 2 ^ 32) (w : Nat) (hw : w < offsetPeriod q.totalSize)
    (hb : w + q.msgSize ≤ 2 * q.totalSize) :
    q.advance w = (w + (q.msgSize - q.totalSize)) % offsetPeriod q.totalSize := by
  have hpos := h.pos
  have hlt := h.lt
  unfold LockFreeQueue.advance u32
  unfold offsetPeriod at hw ⊢
  by_cases hT : q.totalSize ≤ 2 ^ 31
  · have hmin : min q.totalSize (2 ^ 32 - q.totalSize) = q.totalSize := by omega
    rw [hmin]
    by_cases hwrap : w + q.msgSize < 2 ^ 32
    · rw [Nat.mod_eq_of_lt hwrap]
      have he : w + q.msgSize = w + (q.msgSize - q.totalSize) + q.totalSize := by omega
      rw [he, Nat.add_mod_right]
    · have he : w + q.msgSize = 2 ^ 32 := by omega
      have he' : w + (q.msgSize - q.totalSize) = q.totalSize := by omega
      rw [he, he', Nat.mod_self, Nat.mod_self, Nat.zero_mod]
  · have hmin : min q.totalSize (2 ^ 32 - q.totalSize) = 2 ^ 32 - q.totalSize := by omega
    rw [hmin] at hw ⊢
    by_cases hwrap : w + q.msgSize < 2 ^ 32
    · rw [Nat.mod_eq_of_lt hwrap, Nat.mod_eq_of_lt
        (by omega : w + (q.msgSize - q.totalSize) < 2 ^ 32 - q.totalSize)]
      have he : w + q.msgSize = w + (q.msgSize - q.totalSize) + q.totalSize := by omega
      rw [he, Nat.add_mod_right, Nat.mod_eq_of_lt (by omega)]
    · have he : w + q.msgSize = w + q.msgSize - 2 ^ 32 + 2 ^ 32 := by omega
      have he' : w + (q.msgSize - q.totalSize) =
          w + q.msgSize - 2 ^ 32 + (2 ^ 32 - q.totalSize) := by omega
      rw [he, he', Nat.add_mod_right, Nat.add_mod_right, Nat.mod_eq_of_lt (by omega),
        Nat.mod_eq_of_lt (by omega), Nat.mod_eq_of_lt (by omega)]

theorem offsetPeriod_pos (h : q.Sized) : 0 < offsetPeriod q.totalSize := by
  have hpos := h.pos
  have hlt := h.lt
  unfold offsetPeriod
  omega

theorem LockFreeQueue.offsets_short (h : q.Sized) (hS : q.msgSize ≤ q.totalSize) :
    q.Offsets (· < q.totalSize) where
  zero := h.pos
  lt := fun _ hp => hp
  next := fun pos _ => h.advance_lt pos
  push := fun pos pos' hp _ _ => by omega
  pop := fun pos pos' hp _ _ => by omega

theorem LockFreeQueue.offsets_full (h : q.Sized) (hS : q.totalSize ∣ q.msgSize)
    (hlt : q.msgSize < 2 ^ 32) : q.Offsets (· = 0) := by
  have hadv : q.advance 0 = 0 := by
    unfold LockFreeQueue.advance u32
    rw [Nat.zero_add, Nat.mod_eq_of_lt hlt, Nat.mod_eq_zero_of_dvd hS]
  refine ⟨rfl, fun pos hp => hp ▸ h.pos, fun pos hp => hp ▸ hadv, ?_, ?_⟩
  · rintro pos pos' rfl rfl hne
    exact absurd hadv hne
  · rintro pos pos' rfl rfl hne
    exact absurd rfl hne

theorem LockFreeQueue.offsets_round (h : q.Sized) (hS : q.totalSize < q.msgSize)
    (hlt : q.msgSize < 2 ^ 32)
    (hd : offsetPeriod q.totalSize + (q.msgSize - q.totalSize) ≤
      q.totalSize + Nat.gcd (q.msgSize - q.totalSize) (offsetPeriod q.totalSize)) :
    q.Offsets fun pos => ∃ k, pos = k * (q.msgSize - q.totalSize) % offsetPeriod q.totalSize := by
  have hc := offsetPeriod_pos h
  have hle : offsetPeriod q.totalSize ≤ q.totalSize := Nat.min_le_left _ _
  have hb : ∀ k, k * (q.msgSize - q.totalSize) % offsetPeriod q.totalSize + q.msgSize ≤
      2 * q.totalSize := by
    intro k
    have := mul_mod_add_gcd_le hc (q.msgSize - q.totalSize) k
    omega
  refine ⟨⟨0, ?_⟩, ?_, ?_, ?_, ?_⟩
  · rw [Nat.zero_mul, Nat.zero_mod]
  · rintro pos ⟨k, rfl⟩
    exact (Nat.mod_lt _ hc).trans_le hle
  · rintro pos ⟨k, rfl⟩
    refine ⟨k + 1, ?_⟩
    rw [h.advance_step hS hlt _ (Nat.mod_lt _ hc) (hb k), Nat.mod_add_mod, Nat.succ_mul]
  · rintro pos pos' ⟨k, rfl⟩ - -
    exact hb k
  · rintro pos pos' ⟨k, rfl⟩ - -
    exact hb k

theorem LockFreeQueue.safe_of_fits (h : q.Sized) (hlt : q.msgSize < 2 ^ 32) (hr : q.read = 0)
    (hw : q.write = 0) (hf : RingFits q.msgSize q.totalSize) : q.Safe := by
  by_cases hS : q.msgSize ≤ q.totalSize
  · exact (LockFreeQueue.offsets_short h hS).stays h hr hw
  rcases hf.2 with hS' | hS' | hS'
  · exact absurd hS' hS
  · exact (LockFreeQueue.offsets_full h hS' hlt).stays h hr hw
  · exact (LockFreeQueue.offsets_round h (Nat.lt_of_not_le hS) hlt hS').stays h hr hw

end period

/-! ## Going round -/

section rounds

variable {q : LockFreeQueue}

theorem QueueLog.run_append (cs cs' : List QueueCall) : ∀ l : QueueLog,
    QueueLog.run (cs ++ cs') l = (QueueLog.run cs l).bind (QueueLog.run cs') := by
  induction cs with
  | nil => exact fun l => rfl
  | cons c cs ih =>
    intro l
    rw [List.cons_append, QueueLog.run, QueueLog.run]
    cases l.call c with
    | none => rfl
    | some r => exact ih r.2

/-- A message in and out again, `k` times. -/
def rounds (n : Nat) : Nat → List QueueCall
  | 0 => []
  | k + 1 => rounds n k ++ [.push (List.replicate n 0), .pop (List.replicate n 0)]

theorem bufferLength_rounds (n : Nat) : ∀ k, ∀ c ∈ rounds n k, n ≤ c.bufferLength := by
  intro k
  induction k with
  | zero => exact fun c hc => absurd hc List.not_mem_nil
  | succ k ih =>
    intro c hc
    rcases List.mem_append.1 hc with hc | hc
    · exact ih c hc
    · simp only [List.mem_cons, List.not_mem_nil, or_false] at hc
      rcases hc with rfl | rfl <;> simp [QueueCall.bufferLength]

theorem LockFreeQueue.Safe.push_fits (hsafe : q.Safe) (h : q.Sized) {cs : List QueueCall}
    (hcs : ∀ c ∈ cs, q.msgSize ≤ c.bufferLength) {l : QueueLog}
    (hl : QueueLog.run cs ⟨q, [], []⟩ = some l) (ha : q.Alike l.queue)
    (hf : q.advance l.queue.write ≠ l.queue.read) :
    l.queue.write + q.msgSize ≤ 2 * q.totalSize := by
  by_contra hb
  obtain ⟨l₀, hl₀, -, hw⟩ := hsafe cs hcs
  obtain rfl : l = l₀ := Option.some.inj (hl.symm.trans hl₀)
  rw [← ha.advance] at hf
  have hnone := LockFreeQueue.push_outside (ha.sized h) hw
    (by rw [ha.totalSize, ha.msgSize]; exact Nat.lt_of_not_le hb) hf (List.replicate q.msgSize 0)
  obtain ⟨l', hl', -⟩ := hsafe (cs ++ [.push (List.replicate q.msgSize 0)]) (by
    intro c hc
    rcases List.mem_append.1 hc with hc | hc
    · exact hcs c hc
    · rw [List.mem_singleton.1 hc]
      simp [QueueCall.bufferLength])
  rw [QueueLog.run_append, hl] at hl'
  simp only [Option.bind_some, QueueLog.run, LockFreeQueue.call_of_push_none hnone,
    Option.bind_eq_bind, Option.bind_none, reduceCtorEq] at hl'

theorem not_period_dvd (hS : q.totalSize < q.msgSize) (hlt : q.msgSize < 2 ^ 32)
    (hT : ¬ q.totalSize ∣ q.msgSize) : ¬ offsetPeriod q.totalSize ∣ q.msgSize - q.totalSize := by
  intro hd
  unfold offsetPeriod at hd
  rcases Nat.le_total q.totalSize (2 ^ 32 - q.totalSize) with hle | hle
  · rw [Nat.min_eq_left hle] at hd
    exact hT ((Nat.dvd_sub_self_right.1 hd).resolve_right (Nat.not_le.2 hS))
  · rw [Nat.min_eq_right hle] at hd
    have := Nat.le_of_dvd (by omega) hd
    omega

theorem step_ne {c d : Nat} (hd : ¬ c ∣ d) (k : Nat) : (k + 1) * d % c ≠ k * d % c := by
  intro he
  have hmod : k * d + d ≡ k * d + 0 [MOD c] := by
    rw [← Nat.succ_mul]
    exact he
  exact hd ((Nat.modEq_zero_iff_dvd).1 (Nat.ModEq.add_left_cancel' _ hmod))

/-- One round of an empty queue: a message goes in, and out again. -/
theorem LockFreeQueue.Sized.round (h : q.Sized) {l : QueueLog} (ha : q.Alike l.queue)
    (hrw : l.queue.read = l.queue.write) (hw : l.queue.write < q.totalSize)
    (hb : l.queue.write + q.msgSize ≤ 2 * q.totalSize)
    (hne : q.advance l.queue.write ≠ l.queue.write) :
    ∃ l₁ l₂, QueueLog.run [.push (List.replicate q.msgSize 0)] l = some l₁ ∧ q.Alike l₁.queue ∧
      l₁.queue.read = l.queue.write ∧ l₁.queue.write = q.advance l.queue.write ∧
      QueueLog.run [.push (List.replicate q.msgSize 0), .pop (List.replicate q.msgSize 0)] l =
        some l₂ ∧
      q.Alike l₂.queue ∧ l₂.queue.read = q.advance l.queue.write ∧
      l₂.queue.write = q.advance l.queue.write := by
  have hbuf : l.queue.msgSize ≤ (List.replicate q.msgSize (0 : UInt8)).length := by
    rw [List.length_replicate, ha.msgSize]
  have hwlt : l.queue.write < l.queue.totalSize := by
    rwa [ha.totalSize]
  have hb' : l.queue.write + l.queue.msgSize ≤ 2 * l.queue.totalSize := by
    rwa [ha.msgSize, ha.totalSize]
  -- the message goes in
  obtain ⟨buffer, hp⟩ := LockFreeQueue.push_inside (ha.sized h) hwlt hb' hbuf
    (by rw [ha.advance, hrw]; exact hne)
  obtain ⟨l₁, he₁, hq₁⟩ := LockFreeQueue.call_of_push hp
  have ha₁ : q.Alike l₁.queue := by
    rw [hq₁]
    exact ⟨ha.msgSize, ha.totalSize, ha.bufferSize⟩
  have hr₁ : l₁.queue.read = l.queue.write := by rw [hq₁]; exact hrw
  have hw₁ : l₁.queue.write = q.advance l.queue.write := by rw [hq₁]; exact ha.advance _
  -- and out
  obtain ⟨out, hp⟩ := LockFreeQueue.pop_inside (ha₁.sized h)
    (by rw [hr₁, ha₁.totalSize]; exact hw)
    (by rw [hr₁, ha₁.msgSize, ha₁.totalSize]; exact hb)
    (by rw [ha₁.msgSize, ← ha.msgSize]; exact hbuf)
    (by rw [hr₁, hw₁]; exact Ne.symm hne) (List.replicate q.msgSize (0 : UInt8)).length
  obtain ⟨l₂, he₂, hq₂⟩ := LockFreeQueue.call_of_pop hp
  have ha₂ : q.Alike l₂.queue := by
    rw [hq₂]
    exact ⟨ha₁.msgSize, ha₁.totalSize, ha₁.bufferSize⟩
  have hr₂ : l₂.queue.read = q.advance l.queue.write := by
    rw [hq₂]
    show l₁.queue.advance l₁.queue.read = _
    rw [hr₁, ha₁.advance]
  have hw₂ : l₂.queue.write = q.advance l.queue.write := by
    rw [hq₂]
    exact hw₁
  refine ⟨l₁, l₂, ?_, ha₁, hr₁, hw₁, ?_, ha₂, hr₂, hw₂⟩
  · simp only [QueueLog.run, he₁, Option.bind_eq_bind, Option.bind_some]
  · simp only [QueueLog.run, he₁, he₂, Option.bind_eq_bind, Option.bind_some]

/-- In a safe queue for messages longer than the buffer the offsets go all the way round, and a
message fits wherever they come. -/
theorem LockFreeQueue.Safe.rounds (hsafe : q.Safe) (h : q.Sized) (hr : q.read = 0)
    (hw : q.write = 0) (hS : q.totalSize < q.msgSize) (hlt : q.msgSize < 2 ^ 32)
    (hT : ¬ q.totalSize ∣ q.msgSize) (k : Nat) :
    k * (q.msgSize - q.totalSize) % offsetPeriod q.totalSize + q.msgSize ≤ 2 * q.totalSize ∧
      ∃ l, QueueLog.run (Osal.rounds q.msgSize k) ⟨q, [], []⟩ = some l ∧ q.Alike l.queue ∧
        l.queue.read = k * (q.msgSize - q.totalSize) % offsetPeriod q.totalSize ∧
        l.queue.write = k * (q.msgSize - q.totalSize) % offsetPeriod q.totalSize := by
  have hd := not_period_dvd hS hlt hT
  have hc := offsetPeriod_pos h
  induction k with
  | zero =>
    have hadv : q.advance 0 ≠ 0 := by
      unfold LockFreeQueue.advance u32
      rw [Nat.zero_add, Nat.mod_eq_of_lt hlt]
      exact fun he => hT (Nat.dvd_of_mod_eq_zero he)
    have hb := @LockFreeQueue.Safe.push_fits q hsafe h [] (fun c hc => absurd hc List.not_mem_nil)
      ⟨q, [], []⟩ rfl (.refl q) (by rw [hw, hr]; exact hadv)
    rw [Nat.zero_mul, Nat.zero_mod]
    exact ⟨by rw [← hw]; exact hb, ⟨q, [], []⟩, rfl, .refl q, hr, hw⟩
  | succ k ih =>
    obtain ⟨hb, l, hl, ha, hlr, hlw⟩ := ih
    have hstep := h.advance_step hS hlt _ (Nat.mod_lt _ hc) hb
    rw [Nat.mod_add_mod, ← Nat.succ_mul, ← hlw] at hstep
    have hne : q.advance l.queue.write ≠ l.queue.write := by
      rw [hstep, hlw]
      exact step_ne hd k
    have hwlt : l.queue.write < q.totalSize := by
      rw [hlw]
      exact (Nat.mod_lt _ hc).trans_le (Nat.min_le_left _ _)
    obtain ⟨l₁, l₂, hpush, ha₁, hr₁, hw₁, hboth, ha₂, hr₂, hw₂⟩ :=
      h.round ha (hlr.trans hlw.symm) hwlt (by rw [hlw]; exact hb) hne
    have hrun₁ : QueueLog.run (Osal.rounds q.msgSize k ++ [.push (List.replicate q.msgSize 0)])
        ⟨q, [], []⟩ = some l₁ := by
      rw [QueueLog.run_append, hl]
      exact hpush
    have hrun₂ : QueueLog.run (Osal.rounds q.msgSize (k + 1)) ⟨q, [], []⟩ = some l₂ := by
      rw [Osal.rounds, QueueLog.run_append, hl]
      exact hboth
    refine ⟨?_, l₂, hrun₂, ha₂, hr₂.trans hstep, hw₂.trans hstep⟩
    rw [← hstep]
    by_cases hstay : q.advance l₂.queue.write = l₂.queue.read
    · -- full when empty, but not with the message still in
      rw [hr₂, hw₂] at hstay
      rw [← hw₁]
      refine hsafe.push_fits h (fun c hc => ?_) hrun₁ ha₁ ?_
      · rcases List.mem_append.1 hc with hc | hc
        · exact bufferLength_rounds _ _ c hc
        · rw [List.mem_singleton.1 hc]
          simp [QueueCall.bufferLength]
      · rw [hw₁, hstay, hr₁]
        exact hne
    · rw [← hw₂]
      exact hsafe.push_fits h (bufferLength_rounds _ _) hrun₂ ha₂ hstay

theorem LockFreeQueue.Safe.fits (hsafe : q.Safe) (h : q.Sized) (hlt : q.msgSize < 2 ^ 32)
    (hr : q.read = 0) (hw : q.write = 0) : RingFits q.msgSize q.totalSize := by
  refine ⟨h.pos, ?_⟩
  by_cases hS : q.msgSize ≤ q.totalSize
  · exact .inl hS
  by_cases hT : q.totalSize ∣ q.msgSize
  · exact .inr (.inl hT)
  have hS' := Nat.lt_of_not_le hS
  obtain ⟨k, hk⟩ := exists_mul_mod_add_gcd (offsetPeriod_pos h) (not_period_dvd hS' hlt hT)
  have hb := (hsafe.rounds h hr hw hS' hlt hT k).1
  exact .inr (.inr (by omega))

end rounds

/-- **The queue is memory safe** exactly for the sizes in `RingFits`. -/
theorem queue_safe_iff {msgSize msgMax : Nat} {ok : Bool} {q : LockFreeQueue}
    (hlt : msgSize < 2 ^ 32) (hq : osalLockFreeQueueInit msgSize msgMax ok = some q) :
    q.Safe ↔ RingFits msgSize (u32 (msgSize * msgMax)) := by
  unfold osalLockFreeQueueInit at hq
  split_ifs at hq with h₀ hok
  obtain rfl := Option.some.inj hq
  have hT : u32 (msgSize * msgMax) < 2 ^ 32 := Nat.mod_lt _ (Nat.two_pow_pos 32)
  by_cases hpos : 0 < u32 (msgSize * msgMax)
  · have h : LockFreeQueue.Sized ⟨0, 0, msgSize, u32 (msgSize * msgMax), ⟨fun _ => 0⟩,
        u32 (msgSize * msgMax)⟩ := ⟨hpos, hT, rfl⟩
    exact ⟨fun hsafe => hsafe.fits h hlt rfl rfl, LockFreeQueue.safe_of_fits h hlt rfl rfl⟩
  · refine iff_of_false (fun hsafe => ?_) fun hf => hpos hf.1
    obtain ⟨l, hl, hr, -⟩ := hsafe [] fun c hc => absurd hc List.not_mem_nil
    obtain rfl := Option.some.inj hl
    exact hpos (Nat.zero_lt_of_lt hr)

theorem queue_safe_iff_three : ∃ q, osalLockFreeQueueInit 4 3 true = some q ∧ q.Safe :=
  ⟨_, rfl, (@queue_safe_iff 4 3 true _ (by decide) rfl).2 (by decide)⟩

/-- `65536` messages of `65536` bytes: the product is 0, and the first push takes a remainder by it.
Two messages of `2 ^ 31 + 1` bytes: two bytes are allocated, and the first push goes beyond them. -/
theorem queue_unsafe : (∃ q, osalLockFreeQueueInit 65536 65536 true = some q ∧ q.totalSize = 0 ∧
      ∀ msg, osalLockFreeQueuePush q (some msg) = none) ∧
    ∃ q, osalLockFreeQueueInit (2 ^ 31 + 1) 2 true = some q ∧ q.bufferSize = 2 ∧
      ∀ msg, osalLockFreeQueuePush q (some msg) = none := by
  refine ⟨⟨_, rfl, by decide, fun msg => rfl⟩, _, rfl, by decide, fun msg => ?_⟩
  exact LockFreeQueue.push_outside ⟨by decide, by decide, rfl⟩ (by decide) (by decide) (by decide) msg

end FwkMlib.Osal
