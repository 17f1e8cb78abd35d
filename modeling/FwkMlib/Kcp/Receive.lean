import FwkMlib.Kcp.Ikcp

/-!
# The receiving side of KCP

`RecvOk` is what holds of the receiving side of a control block when the pieces `hist` were numbered by
the sender and `consumed` is what the upper level took.

* `insertFromTail_spec` : where a new segment goes in `rcv_buf`;
* `moveAvailable_spec`, `ikcpParseData_spec` : what arrives is kept in its place;
* `ikcpRecv_spec` : the upper level gets whole messages, in their order.
-/

namespace FwkMlib.Kcp
open FwkMlib.Lib

/-! ## The place of a segment -/

/-- Segments by falling numbers. -/
def Falling (segs : List Segment) : Prop := segs.Pairwise fun s s' => s'.sn.toNat < s.sn.toNat

/-- Where the numbers are near each other, a new segment is put in its place unless its number is
there. -/
theorem insertFromTail_spec {newseg : Segment} {segs : List Segment} (hf : Falling segs)
    (hnear : ∀ seg ∈ segs, Near newseg.sn seg.sn) :
    match insertFromTail newseg segs with
    | none => ∃ seg ∈ segs, seg.sn = newseg.sn
    | some segs' => segs'.Perm (newseg :: segs) ∧ Falling segs' := by
  induction segs with
  | nil => exact ⟨.refl _, List.pairwise_singleton _ _⟩
  | cons seg prev ih =>
    obtain ⟨hhead, hprev⟩ := List.pairwise_cons.1 hf
    have hn := hnear seg List.mem_cons_self
    rw [insertFromTail]
    split_ifs with heq hlt
    · exact ⟨seg, List.mem_cons_self, heq⟩
    · -- all the others are smaller than `seg`
      have hlt' : seg.sn.toNat < newseg.sn.toNat := (serialDiff_pos hn).1 hlt
      refine ⟨.refl _, List.pairwise_cons.2 ⟨fun s hs => ?_, hf⟩⟩
      obtain rfl | hs := List.mem_cons.1 hs
      · exact hlt'
      · exact (hhead s hs).trans hlt'
    · have hlt' : newseg.sn.toNat < seg.sn.toNat := by
        have hle := mt (serialDiff_pos hn).2 hlt
        have hne : newseg.sn.toNat ≠ seg.sn.toNat := fun h => heq (UInt32.toNat_inj.1 h).symm
        omega
      have ih := ih hprev fun s hs => hnear s (List.mem_cons_of_mem _ hs)
      cases hins : insertFromTail newseg prev with
      | none =>
        rw [hins] at ih
        obtain ⟨s, hs, hsn⟩ := ih
        exact ⟨s, List.mem_cons_of_mem _ hs, hsn⟩
      | some segs' =>
        rw [hins] at ih
        obtain ⟨hperm, hfall⟩ := ih
        refine ⟨(hperm.cons seg).trans (.swap _ _ _), List.pairwise_cons.2 ⟨fun s hs => ?_, hfall⟩⟩
        obtain rfl | hs := List.mem_cons.1 (hperm.subset hs)
        · exact hlt'
        · exact hhead s hs

/-! ## The invariant -/

/-- The pieces `hist` were numbered; the upper level took `consumed`. -/
structure RecvOk (hist consumed : List (Piece UInt8)) (wnd : UInt32) (r : RecvSide) : Prop where
  rcvNxt_le : r.rcvNxt.toNat ≤ hist.length
  /-- What was moved to the queue is what was numbered first. -/
  queue : consumed ++ r.rcvQueue.map Segment.piece = hist.take r.rcvNxt.toNat
  rising : r.rcvBuf.Pairwise fun s s' => s.sn.toNat < s'.sn.toNat
  buf : ∀ seg ∈ r.rcvBuf, hist[seg.sn.toNat]? = some seg.piece ∧
    r.rcvNxt.toNat ≤ seg.sn.toNat ∧ seg.sn.toNat < r.rcvNxt.toNat + wnd.toNat
  queue_le : r.rcvQueue.length ≤ wnd.toNat
  nrcvQue : r.nrcvQue.toNat = r.rcvQueue.length
  nrcvBuf : r.nrcvBuf.toNat = r.rcvBuf.length

/-- The piece numbered `k` has arrived. -/
def RecvSide.Has (r : RecvSide) (k : Nat) : Prop :=
  k < r.rcvNxt.toNat ∨ ∃ seg ∈ r.rcvBuf, seg.sn.toNat = k

variable {hist consumed : List (Piece UInt8)} {kcp kcp' : Ikcpcb} {wnd : UInt32} {r : RecvSide}
  {seg : Segment}

/-- More pieces may be numbered. -/
theorem RecvOk.append (h : RecvOk hist consumed wnd r) (new : List (Piece UInt8)) :
    RecvOk (hist ++ new) consumed wnd r where
  rcvNxt_le := by
    rw [List.length_append]
    exact h.rcvNxt_le.trans (Nat.le_add_right _ _)
  queue := by rw [h.queue, List.take_append_of_le_length h.rcvNxt_le]
  rising := h.rising
  buf seg hs := by
    obtain ⟨hp, hle, hlt⟩ := h.buf seg hs
    exact ⟨by rw [List.getElem?_append_left (List.getElem?_eq_some_iff.1 hp).1, hp], hle, hlt⟩
  queue_le := h.queue_le
  nrcvQue := h.nrcvQue
  nrcvBuf := h.nrcvBuf

/-- Rising numbers of a window are no more than the window has. -/
theorem length_le_of_rising {segs : List Segment} {n w : Nat}
    (hr : segs.Pairwise fun s s' => s.sn.toNat < s'.sn.toNat)
    (hin : ∀ seg ∈ segs, n ≤ seg.sn.toNat ∧ seg.sn.toNat < n + w) : segs.length ≤ w := by
  have hnodup : (segs.map fun s => s.sn.toNat).Nodup := by
    rw [List.Nodup, List.pairwise_map]
    exact hr.imp fun h => Nat.ne_of_lt h
  have hsub : (segs.map fun s => s.sn.toNat) ⊆ List.range' n w := by
    intro k hk
    obtain ⟨seg, hs, rfl⟩ := List.mem_map.1 hk
    rw [List.mem_range'_1]
    exact hin seg hs
  have hlen := (List.subperm_of_subset hnodup hsub).length_le
  rwa [List.length_map, List.length_range'] at hlen

/-- No more segments wait than the window has room for. -/
theorem RecvOk.buf_le (h : RecvOk hist consumed wnd r) : r.rcvBuf.length ≤ wnd.toNat :=
  length_le_of_rising h.rising fun seg hs => (h.buf seg hs).2

/-! ## Moving to the queue -/

/-- The segment that comes next is moved to the queue. -/
theorem RecvOk.move_one {rest : List Segment} (h : RecvOk hist consumed kcp.rcvWnd kcp.recvSide)
    (hshort : hist.length < 2 ^ 31) (hbuf : kcp.rcvBuf = seg :: rest) (hsn : seg.sn = kcp.rcvNxt)
    (hroom : kcp.nrcvQue < kcp.rcvWnd) :
    RecvOk hist consumed kcp.rcvWnd
      ⟨kcp.rcvNxt + 1, kcp.rcvQueue ++ [seg], rest, kcp.nrcvQue + 1, kcp.nrcvBuf - 1⟩ := by
  have hmem : seg ∈ kcp.rcvBuf := by
    rw [hbuf]
    exact List.mem_cons_self
  obtain ⟨hpiece, -, -⟩ := h.buf seg hmem
  have hlt : kcp.rcvNxt.toNat < hist.length := hsn ▸ (List.getElem?_eq_some_iff.1 hpiece).1
  have hnxt : (kcp.rcvNxt + 1).toNat = kcp.rcvNxt.toNat + 1 := toNat_add_one (by omega)
  have hque : kcp.nrcvQue.toNat = kcp.rcvQueue.length := h.nrcvQue
  have hroom' : kcp.nrcvQue.toNat < kcp.rcvWnd.toNat := hroom
  have hwnd : kcp.rcvWnd.toNat < 2 ^ 32 := kcp.rcvWnd.toNat_lt
  have hrising : (seg :: rest).Pairwise fun s s' => s.sn.toNat < s'.sn.toNat := hbuf ▸ h.rising
  obtain ⟨hhead, htail⟩ := List.pairwise_cons.1 hrising
  constructor
  · show (kcp.rcvNxt + 1).toNat ≤ _
    omega
  · show consumed ++ (kcp.rcvQueue ++ [seg]).map Segment.piece = hist.take (kcp.rcvNxt + 1).toNat
    have hqueue : consumed ++ kcp.rcvQueue.map Segment.piece = hist.take kcp.rcvNxt.toNat := h.queue
    rw [hsn] at hpiece
    rw [hnxt, List.take_add_one, hpiece, List.map_append, ← List.append_assoc, hqueue]
    rfl
  · exact htail
  · intro s hs
    obtain ⟨hp, hle, hlt'⟩ := h.buf s (by
      show s ∈ kcp.rcvBuf
      rw [hbuf]
      exact List.mem_cons_of_mem _ hs)
    have hle' : kcp.rcvNxt.toNat < s.sn.toNat := hsn ▸ hhead s hs
    have hlt'' : s.sn.toNat < kcp.rcvNxt.toNat + kcp.rcvWnd.toNat := hlt'
    refine ⟨hp, ?_, ?_⟩
    · show (kcp.rcvNxt + 1).toNat ≤ _
      omega
    · show _ < (kcp.rcvNxt + 1).toNat + _
      omega
  · show (kcp.rcvQueue ++ [seg]).length ≤ _
    rw [List.length_append, List.length_singleton]
    omega
  · show (kcp.nrcvQue + 1).toNat = (kcp.rcvQueue ++ [seg]).length
    rw [toNat_add_one (by omega), List.length_append, List.length_singleton, hque]
  · show (kcp.nrcvBuf - 1).toNat = rest.length
    have hnbuf : kcp.nrcvBuf.toNat = (seg :: rest).length := hbuf ▸ h.nrcvBuf
    rw [List.length_cons] at hnbuf
    rw [UInt32.toNat_sub_of_le _ _ (UInt32.le_iff_toNat_le.2 (by rw [hnbuf]; exact Nat.le_add_left 1 _)),
      hnbuf]
    rfl

/-- The receiving side has moved on: it has all it had, and the rest of the control block is the same. -/
structure Advanced (kcp kcp' : Ikcpcb) : Prop where
  has : ∀ k, kcp.recvSide.Has k → kcp'.recvSide.Has k
  rcvNxt_le : kcp.rcvNxt.toNat ≤ kcp'.rcvNxt.toNat
  config : kcp'.config = kcp.config
  sendSide : kcp'.sendSide = kcp.sendSide
  sndUna : kcp'.sndUna = kcp.sndUna
  acklist : kcp'.acklist = kcp.acklist

namespace Advanced

theorem refl (kcp : Ikcpcb) : Advanced kcp kcp := ⟨fun _ h => h, Nat.le_refl _, rfl, rfl, rfl, rfl⟩

theorem trans {kcp'' : Ikcpcb} (h : Advanced kcp kcp') (h' : Advanced kcp' kcp'') :
    Advanced kcp kcp'' :=
  ⟨fun k hk => h'.has k (h.has k hk), h.rcvNxt_le.trans h'.rcvNxt_le, h'.config.trans h.config,
    h'.sendSide.trans h.sendSide, h'.sndUna.trans h.sndUna, h'.acklist.trans h.acklist⟩

end Advanced

/-- Nothing can be moved: the next segment has not arrived, or the queue is full. -/
def Settled (kcp : Ikcpcb) : Prop :=
  ∀ seg rest, kcp.rcvBuf = seg :: rest → seg.sn = kcp.rcvNxt → kcp.rcvWnd ≤ kcp.nrcvQue

theorem moveAvailable_spec {segs : List Segment} (hbuf : kcp.rcvBuf = segs)
    (h : RecvOk hist consumed kcp.rcvWnd kcp.recvSide) (hshort : hist.length < 2 ^ 31) :
    RecvOk hist consumed kcp.rcvWnd (moveAvailable segs kcp).recvSide ∧
      Advanced kcp (moveAvailable segs kcp) ∧ Settled (moveAvailable segs kcp) := by
  induction segs generalizing kcp with
  | nil => exact ⟨h, .refl kcp, fun seg rest hs => absurd (hbuf.symm.trans hs) nofun⟩
  | cons seg rest ih =>
    rw [moveAvailable]
    split_ifs with hnext
    · have hone := h.move_one hshort hbuf hnext.1 hnext.2
      let kcp₁ : Ikcpcb := { kcp with
        rcvBuf := rest
        nrcvBuf := kcp.nrcvBuf - 1
        rcvQueue := kcp.rcvQueue ++ [seg]
        nrcvQue := kcp.nrcvQue + 1
        rcvNxt := kcp.rcvNxt + 1 }
      obtain ⟨hok, hadv, hset⟩ := @ih kcp₁ rfl hone
      have hlt : kcp.rcvNxt.toNat < hist.length := by
        obtain ⟨hp, -, -⟩ := h.buf seg (by
          show seg ∈ kcp.rcvBuf
          rw [hbuf]
          exact List.mem_cons_self)
        exact hnext.1 ▸ (List.getElem?_eq_some_iff.1 hp).1
      have hnxt : kcp₁.rcvNxt.toNat = kcp.rcvNxt.toNat + 1 := toNat_add_one (by omega)
      -- the number of the segment that was moved is below the next one now
      have hadv₁ : Advanced kcp kcp₁ := by
        refine ⟨fun k hk => ?_, by omega, rfl, rfl, rfl, rfl⟩
        obtain hk | ⟨s, hs, rfl⟩ := hk
        · have hk' : k < kcp.rcvNxt.toNat := hk
          refine .inl ?_
          show k < kcp₁.rcvNxt.toNat
          omega
        · have hs' : s ∈ seg :: rest := hbuf ▸ hs
          obtain rfl | hs' := List.mem_cons.1 hs'
          · refine .inl ?_
            show s.sn.toNat < kcp₁.rcvNxt.toNat
            rw [hnext.1]
            omega
          · exact .inr ⟨s, hs', rfl⟩
      exact ⟨hok, hadv₁.trans hadv, hset⟩
    · refine ⟨h, .refl kcp, fun s rest' hs hsn => ?_⟩
      obtain ⟨rfl, -⟩ := List.cons.inj (hbuf.symm.trans hs)
      exact UInt32.not_lt.1 fun hlt => hnext ⟨hsn, hlt⟩

/-! ## Data that arrives -/

/-- A segment goes to its place in `rcv_buf`. -/
theorem RecvOk.insert {tail : List Segment} (h : RecvOk hist consumed kcp.rcvWnd kcp.recvSide)
    (hins : tail.Perm (seg :: kcp.rcvBuf.reverse)) (hfall : Falling tail)
    (hpiece : hist[seg.sn.toNat]? = some seg.piece) (hle : kcp.rcvNxt.toNat ≤ seg.sn.toNat)
    (hlt : seg.sn.toNat < kcp.rcvNxt.toNat + kcp.rcvWnd.toNat) :
    RecvOk hist consumed kcp.rcvWnd
      ⟨kcp.rcvNxt, kcp.rcvQueue, tail.reverse, kcp.nrcvQue, kcp.nrcvBuf + 1⟩ := by
  have hbuf : ∀ s ∈ tail.reverse, hist[s.sn.toNat]? = some s.piece ∧
      kcp.rcvNxt.toNat ≤ s.sn.toNat ∧ s.sn.toNat < kcp.rcvNxt.toNat + kcp.rcvWnd.toNat := by
    intro s hs
    obtain rfl | hs := List.mem_cons.1 (hins.subset (List.mem_reverse.1 hs))
    · exact ⟨hpiece, hle, hlt⟩
    · exact h.buf s (List.mem_reverse.1 hs)
  have hrising : tail.reverse.Pairwise fun s s' => s.sn.toNat < s'.sn.toNat :=
    List.pairwise_reverse.2 hfall
  have hlen : tail.reverse.length = kcp.rcvBuf.length + 1 := by
    rw [List.length_reverse, hins.length_eq, List.length_cons, List.length_reverse]
  refine ⟨h.rcvNxt_le, h.queue, hrising, hbuf, h.queue_le, h.nrcvQue, ?_⟩
  have hle := length_le_of_rising hrising fun s hs => (hbuf s hs).2
  have hwnd : kcp.rcvWnd.toNat < 2 ^ 32 := kcp.rcvWnd.toNat_lt
  have hn : kcp.nrcvBuf.toNat = kcp.rcvBuf.length := h.nrcvBuf
  show (kcp.nrcvBuf + 1).toNat = tail.reverse.length
  rw [hlen] at hle ⊢
  rw [toNat_add_one (by omega), hn]

/-- A genuine segment that arrives is kept if the window reaches as far, and nothing else changes. -/
theorem ikcpParseData_spec (h : RecvOk hist consumed kcp.rcvWnd kcp.recvSide)
    (hshort : hist.length < 2 ^ 31) (hwnd : kcp.rcvWnd.toNat < 2 ^ 31)
    (hpiece : hist[seg.sn.toNat]? = some seg.piece) :
    RecvOk hist consumed kcp.rcvWnd (ikcpParseData kcp seg).recvSide ∧
      Advanced kcp (ikcpParseData kcp seg) ∧ (Settled kcp → Settled (ikcpParseData kcp seg)) ∧
      (seg.sn.toNat < kcp.rcvNxt.toNat + kcp.rcvWnd.toNat →
        (ikcpParseData kcp seg).recvSide.Has seg.sn.toNat) := by
  have hsn : seg.sn.toNat < hist.length := (List.getElem?_eq_some_iff.1 hpiece).1
  have hnxt : kcp.rcvNxt.toNat ≤ hist.length := h.rcvNxt_le
  have hnear : Near seg.sn kcp.rcvNxt := near_of_lt (by omega) (by omega)
  have hend : (kcp.rcvNxt + kcp.rcvWnd).toNat = kcp.rcvNxt.toNat + kcp.rcvWnd.toNat := by
    rw [UInt32.toNat_add]
    exact Nat.mod_eq_of_lt (by omega)
  unfold ikcpParseData
  by_cases hold : itimediff seg.sn kcp.rcvNxt < 0
  · rw [if_pos (.inr hold)]
    exact ⟨h, .refl kcp, id, fun _ => .inl ((serialDiff_neg hnear).1 hold)⟩
  have hge : kcp.rcvNxt.toNat ≤ seg.sn.toNat := (serialDiff_nonneg hnear).1 (Int.not_lt.1 hold)
  have hnear' : Near seg.sn (kcp.rcvNxt + kcp.rcvWnd) := by
    refine ⟨?_, ?_⟩ <;> rw [hend] <;> omega
  by_cases hfar : 0 ≤ itimediff seg.sn (kcp.rcvNxt + kcp.rcvWnd)
  · rw [if_pos (.inl hfar)]
    have := (serialDiff_nonneg hnear').1 hfar
    exact ⟨h, .refl kcp, id, fun hlt => by omega⟩
  have hlt : seg.sn.toNat < kcp.rcvNxt.toNat + kcp.rcvWnd.toNat := by
    have := mt (serialDiff_nonneg hnear').2 hfar
    omega
  rw [if_neg (not_or.2 ⟨hfar, hold⟩)]
  have hfall : Falling kcp.rcvBuf.reverse := List.pairwise_reverse.2 h.rising
  have hspec := insertFromTail_spec hfall fun s hs => by
    have hp := (h.buf s (List.mem_reverse.1 hs)).1
    have := (List.getElem?_eq_some_iff.1 hp).1
    exact @near_of_lt seg.sn s.sn (by omega) (by omega)
  cases hins : insertFromTail seg kcp.rcvBuf.reverse with
  | none =>
    rw [hins] at hspec
    obtain ⟨s, hs, hsn'⟩ := hspec
    obtain ⟨hok, hadv, hset⟩ := moveAvailable_spec rfl h hshort
    refine ⟨hok, hadv, fun _ => hset, fun _ => hadv.has _ (.inr ⟨s, List.mem_reverse.1 hs, ?_⟩)⟩
    rw [hsn']
  | some tail =>
    rw [hins] at hspec
    obtain ⟨hperm, hfall'⟩ := hspec
    let kcp₁ : Ikcpcb := { kcp with rcvBuf := tail.reverse, nrcvBuf := kcp.nrcvBuf + 1 }
    have hone : RecvOk hist consumed kcp₁.rcvWnd kcp₁.recvSide :=
      h.insert hperm hfall' hpiece hge hlt
    have hmem : ∀ s, s = seg ∨ s ∈ kcp.rcvBuf → s ∈ kcp₁.rcvBuf := by
      intro s hs
      apply List.mem_reverse.2
      apply hperm.mem_iff.2
      exact List.mem_cons.2 (hs.imp id List.mem_reverse.2)
    have hadv₁ : Advanced kcp kcp₁ := by
      refine ⟨fun k hk => ?_, Nat.le_refl _, rfl, rfl, rfl, rfl⟩
      obtain hk | ⟨s, hs, rfl⟩ := hk
      · exact .inl hk
      · exact .inr ⟨s, hmem s (.inr hs), rfl⟩
    obtain ⟨hok, hadv, hset⟩ := @moveAvailable_spec _ _ kcp₁ _ rfl hone hshort
    exact ⟨hok, hadv₁.trans hadv, fun _ => hset, fun _ => hadv.has _ (.inr ⟨seg, hmem seg (.inl rfl), rfl⟩)⟩

/-! ## The upper level -/

theorem piece_fst_eq_zero (seg : Segment) : seg.piece.1 = 0 ↔ seg.frg = 0 := by
  show seg.frg.toNat = 0 ↔ _
  rw [← UInt32.toNat_inj]
  rfl

/-- The loop of `ikcp_recv` takes the first message of the queue. -/
theorem mergeFragments_eq (segs : List Segment) (n : UInt32) :
    (mergeFragments segs n).1 = (Piece.takeMessage (segs.map Segment.piece)).1 ∧
    (mergeFragments segs n).2.1.map Segment.piece =
      (Piece.takeMessage (segs.map Segment.piece)).2 ∧
    (mergeFragments segs n).2.1.length ≤ segs.length ∧
    (mergeFragments segs n).2.2 + UInt32.ofNat segs.length =
      n + UInt32.ofNat (mergeFragments segs n).2.1.length := by
  induction segs generalizing n with
  | nil => exact ⟨rfl, rfl, Nat.le_refl _, rfl⟩
  | cons seg rest ih =>
    rw [mergeFragments, List.map_cons, List.length_cons, UInt32.ofNat_add]
    show _ = (Piece.takeMessage ((seg.piece.1, seg.data) :: _)).1 ∧ _ =
      (Piece.takeMessage ((seg.piece.1, seg.data) :: _)).2 ∧ _
    rw [Piece.takeMessage]
    by_cases hfrg : seg.frg = 0
    · rw [if_pos hfrg, if_pos ((piece_fst_eq_zero seg).2 hfrg)]
      refine ⟨rfl, rfl, Nat.le_succ _, ?_⟩
      grind
    · rw [if_neg hfrg, if_neg (mt (piece_fst_eq_zero seg).1 hfrg)]
      obtain ⟨hdata, hleft, hle, hn⟩ := ih (n - 1)
      refine ⟨congrArg (seg.data ++ ·) hdata, hleft, Nat.le_succ_of_le hle, ?_⟩
      dsimp only
      grind

/-- The data is as long as `ikcp_peeksize` tells. -/
theorem peekLength_eq (segs : List Segment) (n : UInt32) :
    peekLength segs = (mergeFragments segs n).1.length := by
  induction segs generalizing n with
  | nil => rfl
  | cons seg rest ih =>
    rw [peekLength, mergeFragments]
    split_ifs
    · exact Nat.add_zero _
    · rw [ih (n - 1)]
      exact List.length_append.symm

/-- Where the queue begins with a message of `todo`, its size is told once all of it is there. -/
theorem ikcpPeeksize_spec {g : List (Piece UInt8)} {rest : List Segment}
    (hque : kcp.nrcvQue.toNat = kcp.rcvQueue.length) (hcons : kcp.rcvQueue = seg :: rest)
    (hlen : g.length = seg.piece.1 + 1) (hsmall : g.length < 2 ^ 32)
    (hwhole : g.length ≤ kcp.rcvQueue.length → (mergeFragments kcp.rcvQueue 0).1 = Piece.join g) :
    ikcpPeeksize kcp =
      if g.length ≤ kcp.rcvQueue.length then ((Piece.join g).length : Int) else -1 := by
  have hfrg : (seg.frg + 1).toNat = g.length := by
    rw [toNat_add_one (hlen ▸ hsmall), hlen]
    rfl
  have hlt : kcp.nrcvQue < seg.frg + 1 ↔ kcp.rcvQueue.length < g.length := by
    rw [UInt32.lt_iff_toNat_lt, hque, hfrg]
  have hpeek : g.length ≤ kcp.rcvQueue.length → peekLength kcp.rcvQueue = (Piece.join g).length := by
    intro hle
    rw [peekLength_eq _ 0, hwhole hle]
  unfold ikcpPeeksize
  split
  · next hnil => exact absurd (hcons.symm.trans hnil) (List.cons_ne_nil _ _)
  · next seg' rest' hq =>
    obtain ⟨rfl, rfl⟩ := List.cons.inj (hcons.symm.trans hq)
    by_cases h0 : seg.frg = 0
    · have hle : g.length ≤ kcp.rcvQueue.length := by
        rw [hlen, (piece_fst_eq_zero seg).2 h0, hcons, List.length_cons]
        omega
      rw [if_pos h0, if_pos hle, ← hpeek hle, hcons, peekLength, if_pos h0]
      rfl
    · by_cases hle : g.length ≤ kcp.rcvQueue.length
      · rw [if_neg h0, if_neg (mt hlt.1 (Nat.not_lt.2 hle)), if_pos hle, hpeek hle]
      · rw [if_neg h0, if_pos (hlt.2 (Nat.not_le.1 hle)), if_neg hle]

/-- A message is taken off the queue. -/
theorem RecvOk.take_message {g : List (Piece UInt8)} {left : List Segment} {n : UInt32}
    (h : RecvOk hist consumed kcp.rcvWnd kcp.recvSide)
    (hmap : kcp.rcvQueue.map Segment.piece = g ++ left.map Segment.piece)
    (hle : left.length ≤ kcp.rcvQueue.length)
    (hn : n + UInt32.ofNat kcp.rcvQueue.length = kcp.nrcvQue + UInt32.ofNat left.length) :
    RecvOk hist (consumed ++ g) kcp.rcvWnd ⟨kcp.rcvNxt, left, kcp.rcvBuf, n, kcp.nrcvBuf⟩ := by
  have hlen : kcp.rcvQueue.length ≤ kcp.rcvWnd.toNat := h.queue_le
  have hwnd : kcp.rcvWnd.toNat < 2 ^ 32 := kcp.rcvWnd.toNat_lt
  refine ⟨h.rcvNxt_le, ?_, h.rising, h.buf, hle.trans hlen, ?_, h.nrcvBuf⟩
  · have hqueue : consumed ++ kcp.rcvQueue.map Segment.piece = hist.take kcp.rcvNxt.toNat := h.queue
    rw [List.append_assoc, ← hmap]
    exact hqueue
  · have hque : kcp.nrcvQue = UInt32.ofNat kcp.rcvQueue.length := by
      have hn' : kcp.nrcvQue.toNat = kcp.rcvQueue.length := h.nrcvQue
      rw [← hn', UInt32.ofNat_toNat]
    have hleft : n = UInt32.ofNat left.length := by
      rw [hque] at hn
      grind
    show n.toNat = left.length
    rw [hleft, UInt32.toNat_ofNat']
    exact Nat.mod_eq_of_lt (by omega)

/-- The part of `ikcp_recv` behind its checks. -/
theorem ikcpRecv_eq (len : Int) (hne : kcp.rcvQueue ≠ []) (hpeek : 0 ≤ ikcpPeeksize kcp)
    (hlen : ikcpPeeksize kcp ≤ len.natAbs) :
    ∃ kcp₁ probe, kcp₁ = (if len < 0 then kcp else { kcp with
        rcvQueue := (mergeFragments kcp.rcvQueue kcp.nrcvQue).2.1
        nrcvQue := (mergeFragments kcp.rcvQueue kcp.nrcvQue).2.2 }) ∧
      ikcpRecv kcp len = (((mergeFragments kcp.rcvQueue kcp.nrcvQue).1.length : Int),
        (mergeFragments kcp.rcvQueue kcp.nrcvQue).1,
        { moveAvailable kcp₁.rcvBuf kcp₁ with probe := probe }) := by
  unfold ikcpRecv
  rw [if_neg hne]
  dsimp only
  rw [if_neg (Int.not_lt.2 hpeek), if_neg (Int.not_lt.2 hlen)]
  split_ifs <;> exact ⟨_, _, rfl, rfl⟩

/-- **The upper level gets whole messages in their order**: either the first message of `todo`, which is
taken off the queue unless it was only peeked at, or nothing, because its pieces have not arrived or the
buffer is too small. -/
theorem ikcpRecv_spec {todo : List (List (Piece UInt8))} (len : Int)
    (h : RecvOk hist consumed kcp.rcvWnd kcp.recvSide) (hshort : hist.length < 2 ^ 31)
    (hw : ∀ g ∈ todo, Piece.Whole g) (hsmall : ∀ g ∈ todo, g.length < 2 ^ 32)
    (hpre : kcp.rcvQueue.map Segment.piece <+: todo.flatten) :
    Advanced kcp (ikcpRecv kcp len).2.2 ∧ (Settled kcp → Settled (ikcpRecv kcp len).2.2) ∧
      ((∃ g todo', todo = g :: todo' ∧ (ikcpRecv kcp len).1 = (Piece.join g).length ∧
          (ikcpRecv kcp len).2.1 = Piece.join g ∧
          RecvOk hist (if len < 0 then consumed else consumed ++ g) kcp.rcvWnd
            (ikcpRecv kcp len).2.2.recvSide) ∨
        ((ikcpRecv kcp len).1 < 0 ∧ (ikcpRecv kcp len).2.2 = kcp ∧
          ∀ g todo', todo = g :: todo' → kcp.rcvQueue = [] ∨ kcp.rcvQueue.length < g.length ∨
            len.natAbs < (Piece.join g).length)) := by
  cases hq : kcp.rcvQueue with
  | nil =>
    have hres : ikcpRecv kcp len = (-1, [], kcp) := by
      unfold ikcpRecv
      rw [if_pos hq]
    rw [hres]
    exact ⟨.refl kcp, id, .inr ⟨(by decide : (-1 : Int) < 0), rfl, fun _ _ _ => .inl rfl⟩⟩
  | cons seg rest =>
    have hpre' : seg.piece :: rest.map Segment.piece <+: todo.flatten := by
      rw [hq, List.map_cons] at hpre
      exact hpre
    obtain ⟨g, todo', rfl, hlen, hwhole⟩ := Piece.exists_whole hw hpre'
    have hgsmall := hsmall g List.mem_cons_self
    have hmap : kcp.rcvQueue.map Segment.piece = seg.piece :: rest.map Segment.piece := by
      rw [hq, List.map_cons]
    have hmlen : (seg.piece :: rest.map Segment.piece).length = kcp.rcvQueue.length := by
      rw [← hmap, List.length_map]
    rw [hmlen] at hwhole
    -- what the loop takes when all of the message is there
    have htake : ∀ n, g.length ≤ kcp.rcvQueue.length →
        (mergeFragments kcp.rcvQueue n).1 = Piece.join g ∧
        kcp.rcvQueue.map Segment.piece =
          g ++ (mergeFragments kcp.rcvQueue n).2.1.map Segment.piece := by
      intro n hle
      obtain ⟨qs, hqs, -⟩ := hwhole hle
      obtain ⟨hdata, hleft, -, -⟩ := mergeFragments_eq kcp.rcvQueue n
      rw [hmap, hqs, Piece.takeMessage_append (hw g List.mem_cons_self)] at hdata hleft
      exact ⟨hdata, by rw [hmap, hqs, hleft]⟩
    have hpeek := ikcpPeeksize_spec h.nrcvQue hq hlen hgsmall fun hle => (htake 0 hle).1
    have hne : kcp.rcvQueue ≠ [] := by
      rw [hq]
      exact List.cons_ne_nil _ _
    by_cases hle : g.length ≤ kcp.rcvQueue.length
    · rw [if_pos hle] at hpeek
      by_cases hbig : len.natAbs < (Piece.join g).length
      · have hres : ikcpRecv kcp len = (-3, [], kcp) := by
          unfold ikcpRecv
          rw [if_neg hne]
          dsimp only
          rw [hpeek, if_neg (by omega), if_pos (by omega)]
        rw [hres]
        refine ⟨.refl kcp, id, .inr ⟨(by decide : (-3 : Int) < 0), rfl, fun g' t' h' => ?_⟩⟩
        cases h'
        exact .inr (.inr hbig)
      · obtain ⟨kcp₁, probe, hkcp₁, hres⟩ := ikcpRecv_eq len hne (by rw [hpeek]; omega) (by omega)
        obtain ⟨hdata, hmerge⟩ := htake kcp.nrcvQue hle
        obtain ⟨-, -, hleft, hcount⟩ := mergeFragments_eq kcp.rcvQueue kcp.nrcvQue
        have hok₁ : RecvOk hist (if len < 0 then consumed else consumed ++ g) kcp₁.rcvWnd
            kcp₁.recvSide ∧ Advanced kcp kcp₁ := by
          rw [hkcp₁]
          split_ifs with hneg
          · exact ⟨h, .refl kcp⟩
          · exact ⟨h.take_message hmerge hleft hcount, fun k hk => hk, Nat.le_refl _, rfl, rfl, rfl, rfl⟩
        obtain ⟨hok, hadv, hset⟩ := moveAvailable_spec rfl hok₁.1 hshort
        have hwnd : kcp₁.rcvWnd = kcp.rcvWnd := congrArg Config.rcvWnd hok₁.2.config
        rw [hres, hdata]
        rw [hwnd] at hok
        exact ⟨hok₁.2.trans ⟨hadv.has, hadv.rcvNxt_le, hadv.config, hadv.sendSide, hadv.sndUna,
            hadv.acklist⟩, fun _ => hset,
          .inl ⟨g, todo', rfl, rfl, rfl, hok⟩⟩
    · rw [if_neg hle] at hpeek
      have hres : ikcpRecv kcp len = (-2, [], kcp) := by
        unfold ikcpRecv
        rw [if_neg hne]
        dsimp only
        rw [hpeek, if_pos (by decide)]
      rw [hres]
      refine ⟨.refl kcp, id, .inr ⟨(by decide : (-2 : Int) < 0), rfl, fun g' t' h' => ?_⟩⟩
      cases h'
      exact .inr (.inl (hq ▸ Nat.not_le.1 hle))

end FwkMlib.Kcp
