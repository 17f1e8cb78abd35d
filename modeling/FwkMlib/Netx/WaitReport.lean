import FwkMlib.Netx.WaitRun
import Mathlib.Data.Nat.Bitwise
import Mathlib.Data.List.Rotate

/-!
# What one `netx_wait` call reports

* `readyMask`, `ready` : the events ready on an fd, the registrations with an interest in one of
  them;
* `Returned` : what `select` leaves in the sets with a positive count;
* `netxWait_reports` : a wait on a reachable poll object reports the first ready registrations in
  ring order, and at most turns the ring.
-/

namespace FwkMlib.Netx
open FwkMlib.Lib NetxPoll

def readyMask (fs : FdSets) (fd : Int) : Nat :=
  (if fs.fsIn fd then netxEventIn else 0) ||| (if fs.fsOut fd then netxEventOut else 0) |||
  (if fs.fsEt fd then netxEventEt else 0)

/-- The registrations whose interest meets the readiness of their fd. -/
def ready (fs : FdSets) (es : List (Int × NetxEvent)) : List (Int × NetxEvent) :=
  es.filter fun e => e.2.events &&& readyMask fs e.1 ≠ 0

/-- The entry of `events` for a registration: its data, and the bits both watched and ready. -/
def report (fs : FdSets) (e : Int × NetxEvent) : Int × NetxEvent :=
  (e.1, ⟨e.2.events &&& readyMask fs e.1, e.2.data⟩)

/-- What `select` leaves behind with a positive count, asked about `req`: a part of the requested
fds, and not none of them. -/
structure Returned (req fs : FdSets) : Prop where
  fsIn : ∀ fd, fs.fsIn fd → req.fsIn fd
  fsOut : ∀ fd, fs.fsOut fd → req.fsOut fd
  fsEt : ∀ fd, fs.fsEt fd → req.fsEt fd
  some : ∃ fd, fs.fsIn fd ∨ fs.fsOut fd ∨ fs.fsEt fd

variable {fs : FdSets} {es : List (Int × NetxEvent)} {e : Int × NetxEvent}

theorem and_bit (n k : Nat) (b : Bool) :
    (if n &&& 2 ^ k ≠ 0 ∧ b then 2 ^ k else 0) = n &&& (if b then 2 ^ k else 0) := by
  cases b with
  | false => simp
  | true =>
    simp only [and_true, if_true]
    split_ifs with h
    · rw [Nat.and_two_pow] at h ⊢
      cases hb : n.testBit k with
      | true => rw [Bool.toNat_true, Nat.one_mul]
      | false =>
        rw [hb, Bool.toNat_false, Nat.zero_mul] at h
        exact absurd rfl h
    · exact (not_not.1 h).symm

/-- The bits reported for a registration are those both watched and ready. -/
theorem readyEvents_eq (fs : FdSets) (e : Int × NetxEvent) :
    readyEvents fs e = e.2.events &&& readyMask fs e.1 := by
  have hin := and_bit e.2.events 0 (fs.fsIn e.1)
  have hout := and_bit e.2.events 1 (fs.fsOut e.1)
  have het := and_bit e.2.events 2 (fs.fsEt e.1)
  unfold readyMask
  rw [Nat.and_or_distrib_left, Nat.and_or_distrib_left]
  exact congrArg₂ (· ||| ·) (congrArg₂ (· ||| ·) hin hout) het

theorem reports_eq (fs : FdSets) (es : List (Int × NetxEvent)) :
    reports fs es = (ready fs es).map (report fs) := by
  unfold reports ready
  simp only [readyEvents_eq]
  rfl

theorem interest_iff {bit : Nat} {fd : Int} :
    interest bit es fd = true ↔ ∃ e ∈ es, e.1 = fd ∧ e.2.events &&& bit ≠ 0 := by
  unfold interest
  simp only [List.any_eq_true, decide_eq_true_eq]

/-- An interest in a ready event meets the readiness. -/
theorem and_ne_zero {n mask k : Nat} (hn : n &&& 2 ^ k ≠ 0) (hm : mask.testBit k = true) :
    n &&& mask ≠ 0 := by
  intro h
  rw [Nat.and_two_pow] at hn
  have hbit : (n &&& mask).testBit k = false := by rw [h, Nat.zero_testBit]
  rw [Nat.testBit_and, hm, Bool.and_true] at hbit
  rw [hbit, Bool.toNat_false, Nat.zero_mul] at hn
  exact hn rfl

theorem testBit_readyMask (fs : FdSets) (fd : Int) :
    (readyMask fs fd).testBit 0 = fs.fsIn fd ∧ (readyMask fs fd).testBit 1 = fs.fsOut fd ∧
      (readyMask fs fd).testBit 2 = fs.fsEt fd := by
  unfold readyMask
  cases fs.fsIn fd <;> cases fs.fsOut fd <;> cases fs.fsEt fd <;> decide

/-- An fd left in a set stands for a registration that is ready. -/
theorem ready_ne_nil (h : Returned (interests es) fs) : ready fs es ≠ [] := by
  have hfound : ∀ k fd, (readyMask fs fd).testBit k = true →
      interest (2 ^ k) es fd = true → ready fs es ≠ [] := by
    intro k fd hk hi
    obtain ⟨e, he, rfl, hbit⟩ := interest_iff.1 hi
    apply List.ne_nil_of_mem
    exact List.mem_filter.2 ⟨he, decide_eq_true (and_ne_zero hbit hk)⟩
  obtain ⟨fd, hfd⟩ := h.some
  obtain ⟨hin, hout, het⟩ := testBit_readyMask fs fd
  rcases hfd with hfd | hfd | hfd
  · exact hfound 0 fd (hin.trans hfd) (h.fsIn fd hfd)
  · exact hfound 1 fd (hout.trans hfd) (h.fsOut fd hfd)
  · exact hfound 2 fd (het.trans hfd) (h.fsEt fd hfd)

/-- The poll object after a wait: the same registrations in the same items, entered at the same or
at the next item. -/
structure Turned (p p' : NetxPoll) (used used' : List Nat) : Prop where
  inv : PollInv p' used'
  rotated : used' ~r used
  same : p' = { p with usedList := p'.usedList }

theorem Turned.refl {p : NetxPoll} {used : List Nat} (hi : PollInv p used) : Turned p p used used :=
  ⟨hi, List.IsRotated.refl used, rfl⟩

theorem Turned.entries {p p' : NetxPoll} {used used' : List Nat} (h : Turned p p' used used') :
    p'.entries used' ~r p.entries used := by
  have hitems : p'.items = p.items := by rw [h.same]
  have hfun : p'.entries used' = p.entries used' := by
    unfold NetxPoll.entries
    rw [hitems]
  rw [hfun]
  exact h.rotated.map _

/-- A wait on a ring: the first `max` ready registrations, in ring order. -/
theorem wait_reports {p : NetxPoll} {used : List Nat} (hi : PollInv p used)
    (hfd : ∀ e ∈ p.entries used, Watched e → InFdSet e.1)
    (hpos : ∃ e ∈ p.entries used, Watched e ∧ 0 < e.1) {max : Nat} (hmax : 1 ≤ max)
    (timeout : Nat) (select : Select) {ret : Int} {fs : FdSets} (hret : 0 < ret)
    (hsel : select (maxWatched (p.entries used) 0 + 1) (interests (p.entries used))
      (timeout / 1000) (1000 * (timeout % 1000)) = (ret, fs)) :
    ∃ p' used', p.wait max timeout select =
        some ((((ready fs (p.entries used)).take max).length : Int),
          ((ready fs (p.entries used)).take max).map (report fs), p') ∧
      Turned p p' used used' := by
  cases used with
  | nil =>
    obtain ⟨e, he, -⟩ := hpos
    exact absurd he List.not_mem_nil
  | cons u l =>
    have hw := wait_eq hi hfd hpos hmax timeout select hsel
    rw [if_neg (by omega), if_neg (by omega), reports_eq, List.length_map] at hw
    by_cases hroom : (ready fs (p.entries (u :: l))).length < max
    · rw [if_pos hroom] at hw
      refine ⟨{ p with usedList := (p.items u).next }, l ++ [u], ?_, rotate_inv hi, ?_, rfl⟩
      · rw [List.take_of_length_le hroom.le]
        exact hw
      · exact ⟨l.length, by simp⟩
    · rw [if_neg hroom] at hw
      refine ⟨p, u :: l, ?_, Turned.refl hi⟩
      rw [List.length_take, Nat.min_eq_left (Nat.le_of_not_lt hroom), List.map_take]
      exact hw

/-- A call on a live poll object that selects and finds something ready. -/
theorem netxWait_ready {polls : NetxPolls} {poll : Int} {p : NetxPoll} {used : List Nat}
    (hl : polls.lookup poll = some p) (hi : PollInv p used)
    (hpos : ∃ e ∈ p.entries used, Watched e ∧ 0 < e.1)
    (hbound : ∀ e ∈ p.entries used, Watched e → e.1 < FD_SETSIZE) {m : Nat} (hm : 1 ≤ m)
    {timeout : Nat} {select : Select} {ret : Int} {fs : FdSets}
    (hsel : select (maxWatched (p.entries used) 0 + 1) (interests (p.entries used))
      (timeout / 1000) (1000 * (timeout % 1000)) = (ret, fs))
    (hret : 0 < ret) (hfs : Returned (interests (p.entries used)) fs) :
    ∃ out p' used', netxWait polls poll true m timeout select =
        some ((out.length : Int), out, polls.setSlot (poll.toNat - 1) (some p')) ∧
      out = ((ready fs (p.entries used)).take m).map (report fs) ∧ 1 ≤ out.length ∧
      Turned p p' used used' := by
  have hfd : ∀ e ∈ p.entries used, Watched e → InFdSet e.1 :=
    fun e he hw => (inFdSet_iff hi he).2 (hbound e he hw)
  obtain ⟨p', used', hw, hturn⟩ := wait_reports hi hfd hpos hm timeout select hret hsel
  have hcounts : p.counts ≠ 0 := by
    obtain ⟨e, he, -⟩ := hpos
    exact counts_ne_zero hi (List.ne_nil_of_mem he)
  refine ⟨_, p', used', ?_, rfl, ?_, hturn⟩
  · rw [netxWait_live hl hm hcounts hw, List.length_map]
  · have := List.length_pos_iff.2 (ready_ne_nil hfs)
    rw [List.length_map, List.length_take]
    omega

/-- **What `netx_wait` reports**: the first `m` ready registrations in ring order, each once with
its data and the bits both watched and ready. No registration and no link of the ring changes, but
the head may move on. -/
theorem netxWait_reports {polls : NetxPolls} (hreach : Reachable polls) {poll : Int}
    {p : NetxPoll} (hl : polls.lookup poll = some p) :
    ∃ used, PollInv p used ∧ ∀ (m timeout : Nat) (select : Select) (ret : Int) (fs : FdSets),
      (∃ e ∈ p.entries used, Watched e ∧ 0 < e.1) →
      (∀ e ∈ p.entries used, Watched e → e.1 < FD_SETSIZE) → 1 ≤ m →
      select (maxWatched (p.entries used) 0 + 1) (interests (p.entries used))
        (timeout / 1000) (1000 * (timeout % 1000)) = (ret, fs) →
      0 < ret → Returned (interests (p.entries used)) fs →
      ∃ out p' used', netxWait polls poll true m timeout select =
          some ((out.length : Int), out, polls.setSlot (poll.toNat - 1) (some p')) ∧
        out = ((ready fs (p.entries used)).take m).map (report fs) ∧
        1 ≤ out.length ∧ out.length ≤ m ∧ (out.map Prod.fst).Nodup ∧
        Turned p p' used used' := by
  obtain ⟨-, -, used, hi⟩ := hreach.inv.live _ p (NetxPolls.lookup_eq_some.1 hl).2
  refine ⟨used, hi, fun m timeout select ret fs hpos hbound hm hsel hret hfs => ?_⟩
  obtain ⟨out, p', used', hw, rfl, hone, hturn⟩ := netxWait_ready hl hi hpos hbound hm hsel hret hfs
  refine ⟨_, p', used', hw, rfl, hone, ?_, ?_, hturn⟩
  · rw [List.length_map]
    exact List.length_take_le m _
  · have hsub : (((ready fs (p.entries used)).take m).map Prod.fst).Sublist
        ((p.entries used).map Prod.fst) :=
      ((List.take_sublist m _).trans List.filter_sublist).map Prod.fst
    have hnodup : ((p.entries used).map Prod.fst).Nodup := by
      rw [entries_fst]
      exact hi.fdNodup
    rw [List.map_map]
    exact hnodup.sublist hsub

def secondSets : FdSets := ⟨fun fd => fd = 2, fun _ => false, fun _ => false⟩

def secondReady : Select := fun _ _ _ _ => (1, secondSets)

theorem returned_second : Returned (interests bothEntries) secondSets where
  fsIn fd hfd := by
    obtain rfl : fd = 2 := of_decide_eq_true hfd
    decide
  fsOut fd hfd := absurd hfd Bool.false_ne_true
  fsEt fd hfd := absurd hfd Bool.false_ne_true
  some := ⟨2, .inl rfl⟩

/-- Two connections wait, the second is ready, the array has room for one event. -/
theorem netxWait_reports_second : ∃ polls out p', Reachable polls ∧
    netxWait polls 1 true 1 0 secondReady = some (1, out, polls.setSlot 0 (some p')) ∧
    out = [(2, ⟨netxEventIn, 2⟩)] := by
  obtain ⟨rets, polls, p, used, -, hreach, hl, hi, hm⟩ := exists_addBoth
  obtain ⟨used', hi', hreports⟩ := netxWait_reports hreach hl
  obtain rfl := hi.unique hi'
  rw [hm] at hreports
  obtain ⟨out, p', used', hw, hout, -⟩ := hreports 1 0 secondReady 1 secondSets (by decide)
    (by decide) le_rfl rfl (by decide) returned_second
  have he : ((ready secondSets bothEntries).take 1).map (report secondSets) =
      [(2, ⟨netxEventIn, 2⟩)] := by
    decide
  rw [he] at hout
  refine ⟨polls, out, p', hreach, ?_, hout⟩
  rw [hw, hout]
  rfl

end FwkMlib.Netx
