import FwkMlib.Kcp.Flush
import FwkMlib.Kcp.Receive

/-!
# What `ikcp_input` does with a datagram of the other side

* `ikcpInputLoop_encodeAll` : segments that were put on the wire are read one by one;
* `Packet` : what the other side may put on the wire;
* `ikcpInput_spec` : a datagram of packets leaves what both sides rely on.
-/

namespace FwkMlib.Kcp
open FwkMlib.Lib

/-! ## Reading segments -/

/-- A segment that the loop of `ikcp_input` accepts. -/
structure Wire (conv : UInt32) (seg : Segment) : Prop where
  conv : seg.conv = conv
  cmd : seg.cmd = IKCP_CMD_PUSH.toUInt32 ∨ seg.cmd = IKCP_CMD_ACK.toUInt32 ∨
    seg.cmd = IKCP_CMD_WASK.toUInt32 ∨ seg.cmd = IKCP_CMD_WINS.toUInt32
  length_lt : seg.data.length < 2 ^ 31

/-- The segments one by one. -/
def inputAll (kcp : Ikcpcb) (mark : AckMark) : List Segment → Ikcpcb × AckMark
  | [] => (kcp, mark)
  | seg :: rest =>
    let (kcp, mark) := inputSegment kcp mark seg.header seg.data
    inputAll kcp mark rest

theorem Wire.len {conv : UInt32} {seg : Segment} (h : Wire conv seg) :
    seg.header.len.toNat = seg.data.length ∧ ¬ seg.header.len.toInt32 < 0 := by
  have hlen : seg.header.len.toNat = seg.data.length :=
    UInt32.toNat_ofNat_of_lt' (by
      have := h.length_lt
      show _ < 2 ^ 32
      omega)
  refine ⟨hlen, ?_⟩
  rw [Int32.lt_iff_toInt_lt]
  show ¬ seg.header.len.toBitVec.toInt < 0
  rw [BitVec.toInt_eq_toNat_of_lt]
  · exact Int.not_lt.2 (Int.natCast_nonneg _)
  · show 2 * seg.header.len.toNat < 2 ^ 32
    have := h.length_lt
    omega

theorem Wire.cmd_ok {conv : UInt32} {seg : Segment} (h : Wire conv seg) :
    ¬ (seg.header.cmd ≠ IKCP_CMD_PUSH ∧ seg.header.cmd ≠ IKCP_CMD_ACK ∧
      seg.header.cmd ≠ IKCP_CMD_WASK ∧ seg.header.cmd ≠ IKCP_CMD_WINS) := by
  show ¬ (seg.cmd.toUInt8 ≠ _ ∧ seg.cmd.toUInt8 ≠ _ ∧ seg.cmd.toUInt8 ≠ _ ∧ seg.cmd.toUInt8 ≠ _)
  obtain hc | hc | hc | hc := h.cmd <;> rw [hc] <;> decide

/-! ## The configuration stays -/

theorem moveAvailable_config (segs : List Segment) (kcp : Ikcpcb) :
    (moveAvailable segs kcp).config = kcp.config := by
  induction segs generalizing kcp with
  | nil => rfl
  | cons seg rest ih =>
    rw [moveAvailable]
    split_ifs
    · exact ih _
    · rfl

theorem ikcpParseData_config (kcp : Ikcpcb) (newseg : Segment) :
    (ikcpParseData kcp newseg).config = kcp.config := by
  unfold ikcpParseData
  split_ifs
  · rfl
  · rw [moveAvailable_config]
    split <;> rfl

/-- `ikcp_parse_ack` touches the sending side only. -/
theorem ikcpParseAck_frame (kcp : Ikcpcb) (sn : UInt32) :
    (ikcpParseAck kcp sn).config = kcp.config ∧ (ikcpParseAck kcp sn).recvSide = kcp.recvSide ∧
      (ikcpParseAck kcp sn).acklist = kcp.acklist := by
  unfold ikcpParseAck
  split_ifs <;> exact ⟨rfl, rfl, rfl⟩

theorem inputSegment_config (kcp : Ikcpcb) (mark : AckMark) (h : Header) (data : List UInt8) :
    (inputSegment kcp mark h data).1.config = kcp.config := by
  have huna : (ikcpShrinkBuf (ikcpParseUna { kcp with rmtWnd := h.wnd.toUInt32 } h.una)).config =
      kcp.config := (ikcpShrinkBuf_spec _).2.1
  unfold inputSegment
  dsimp only
  rw [← huna]
  generalize ikcpShrinkBuf (ikcpParseUna { kcp with rmtWnd := h.wnd.toUInt32 } h.una) = kcp₁
  split_ifs
  · exact (ikcpShrinkBuf_spec _).2.1.trans (ikcpParseAck_frame _ _).1
  · exact (ikcpShrinkBuf_spec _).2.1.trans (ikcpParseAck_frame _ _).1
  · exact ikcpParseData_config _ _
  all_goals rfl

/-- What was put on the wire is read segment by segment. -/
theorem ikcpInputLoop_encodeAll {segs : List Segment} {kcp : Ikcpcb} (mark : AckMark) {fuel : Nat}
    (hw : ∀ seg ∈ segs, Wire kcp.conv seg) (hfuel : segs.length ≤ fuel) :
    ikcpInputLoop fuel kcp mark (encodeAll segs) = (0, inputAll kcp mark segs) := by
  induction segs generalizing kcp mark fuel with
  | nil =>
    cases fuel with
    | zero => rfl
    | succ fuel => rfl
  | cons seg rest ih =>
    cases fuel with
    | zero => exact absurd hfuel (Nat.not_succ_le_zero _)
    | succ fuel =>
      have hseg := hw seg List.mem_cons_self
      have hconf := inputSegment_config kcp mark seg.header seg.data
      have hlen : ¬ (encodeAll (seg :: rest)).length < IKCP_OVERHEAD.toNat := by
        rw [encodeAll_cons, List.length_append, length_ikcpEncodeSeg]
        exact Nat.not_lt.2 (Nat.le_add_right _ _)
      have hroom : ¬ ((seg.data ++ encodeAll rest).length < seg.header.len.toNat ∨
          seg.header.len.toInt32 < 0) := by
        rw [hseg.len.1, List.length_append]
        exact not_or.2 ⟨Nat.not_lt.2 (Nat.le_add_right _ _), hseg.len.2⟩
      have hconv : ¬ seg.header.conv ≠ kcp.conv := not_not.2 hseg.conv
      rw [ikcpInputLoop, if_neg hlen, encodeAll_cons, decodeHeader_ikcpEncodeSeg]
      dsimp only
      rw [if_neg hconv, if_neg hroom, if_neg hseg.cmd_ok, hseg.len.1, List.take_left, List.drop_left,
        inputAll]
      generalize inputSegment kcp mark seg.header seg.data = res at hconf
      obtain ⟨kcp', mark'⟩ := res
      have hconv' : kcp'.conv = kcp.conv := congrArg Config.conv hconf
      exact ih mark' (fun s hs => hconv' ▸ hw s (List.mem_cons_of_mem _ hs)) (Nat.le_of_succ_le_succ hfuel)

/-! ## Acknowledgements -/

/-- `snd_buf` has lost only segments whose number the other side has. -/
structure Shrunk (P : Nat → Prop) (s s' : SendSide) : Prop where
  sndNxt : s'.sndNxt = s.sndNxt
  sndQueue : s'.sndQueue = s.sndQueue
  nsndQue : s'.nsndQue = s.nsndQue
  sublist : (s'.sndBuf.map Segment.core).Sublist (s.sndBuf.map Segment.core)
  kept : ∀ seg ∈ s.sndBuf, P seg.sn.toNat ∨ ∃ seg' ∈ s'.sndBuf, seg'.sn = seg.sn
  count : s.nsndBuf = UInt32.ofNat s.sndBuf.length → s'.nsndBuf = UInt32.ofNat s'.sndBuf.length

namespace Shrunk

variable {P : Nat → Prop} {s s' s'' : SendSide}

theorem refl (P : Nat → Prop) (s : SendSide) : Shrunk P s s :=
  ⟨rfl, rfl, rfl, .refl _, fun seg hs => .inr ⟨seg, hs, rfl⟩, id⟩

theorem trans (h : Shrunk P s s') (h' : Shrunk P s' s'') : Shrunk P s s'' := by
  refine ⟨h'.sndNxt.trans h.sndNxt, h'.sndQueue.trans h.sndQueue, h'.nsndQue.trans h.nsndQue,
    h'.sublist.trans h.sublist, fun seg hs => ?_, fun hn => h'.count (h.count hn)⟩
  obtain hp | ⟨seg', hs', hsn⟩ := h.kept seg hs
  · exact .inl hp
  · rw [← hsn]
    exact h'.kept seg' hs'

theorem of_eq (h : s' = s) : Shrunk P s s' := h ▸ refl P s

/-- The segments left are some of those before, cores apart. -/
theorem exists_core (h : Shrunk P s s') {seg : Segment} (hs : seg ∈ s'.sndBuf) :
    ∃ seg' ∈ s.sndBuf, seg'.core = seg.core :=
  List.mem_map.1 (h.sublist.subset (List.mem_map_of_mem hs))

end Shrunk

/-- `ikcp_parse_una` takes segments off the front. -/
theorem removeUna_spec (una : UInt32) (segs : List Segment) (n : UInt32) :
    ∃ k, removeUna una segs n = (segs.drop k, n - UInt32.ofNat k) ∧ k ≤ segs.length ∧
      ∀ seg ∈ segs.take k, 0 < itimediff una seg.sn := by
  induction segs generalizing n with
  | nil => exact ⟨0, by simp [removeUna], Nat.le_refl _, nofun⟩
  | cons seg rest ih =>
    rw [removeUna]
    split_ifs with hlt
    · obtain ⟨k, heq, hk, hall⟩ := ih (n - 1)
      refine ⟨k + 1, ?_, Nat.succ_le_succ hk, fun s hs => ?_⟩
      · rw [heq, List.drop_succ_cons]
        congr 1
        rw [UInt32.ofNat_add]
        grind
      · obtain rfl | hs := List.mem_cons.1 hs
        · exact hlt
        · exact hall s hs
    · exact ⟨0, by simp, Nat.zero_le _, nofun⟩

/-- `ikcp_parse_ack` takes off one segment at most, of that number. -/
theorem removeAcked_spec (sn : UInt32) (segs : List Segment) (n : UInt32) :
    (removeAcked sn segs n).1.Sublist segs ∧
      (∀ seg ∈ segs, seg.sn = sn ∨ seg ∈ (removeAcked sn segs n).1) ∧
      (removeAcked sn segs n).2 + UInt32.ofNat segs.length =
        n + UInt32.ofNat (removeAcked sn segs n).1.length := by
  induction segs generalizing n with
  | nil => exact ⟨.refl _, nofun, rfl⟩
  | cons seg rest ih =>
    rw [removeAcked]
    split_ifs with heq hlt
    · refine ⟨List.sublist_cons_self _ _, fun s hs => ?_, ?_⟩
      · obtain rfl | hs := List.mem_cons.1 hs
        · exact .inl heq.symm
        · exact .inr hs
      · rw [List.length_cons, UInt32.ofNat_add]
        grind
    · exact ⟨.refl _, fun s hs => .inr hs, rfl⟩
    · obtain ⟨hsub, hkept, hcount⟩ := ih n
      refine ⟨hsub.cons_cons seg, fun s hs => ?_, ?_⟩
      · obtain rfl | hs := List.mem_cons.1 hs
        · exact .inr List.mem_cons_self
        · exact (hkept s hs).imp id (List.mem_cons_of_mem _)
      · rw [List.length_cons, List.length_cons, UInt32.ofNat_add, UInt32.ofNat_add]
        grind

theorem core_countSkipped (sn ts : UInt32) (segs : List Segment) :
    (countSkipped sn ts segs).map Segment.core = segs.map Segment.core := by
  induction segs with
  | nil => rfl
  | cons seg rest ih =>
    rw [countSkipped]
    split_ifs
    · rfl
    · rw [List.map_cons, ih, List.map_cons]
      rfl
    · rw [List.map_cons, ih, List.map_cons]

variable {P : Nat → Prop} {kcp kcp' : Ikcpcb}

theorem Shrunk.of_core {s s' : SendSide} (h : s'.sndBuf.map Segment.core = s.sndBuf.map Segment.core)
    (hs : s' = { s with sndBuf := s'.sndBuf }) : Shrunk P s s' := by
  have hlen : s'.sndBuf.length = s.sndBuf.length := by
    have := congrArg List.length h
    rwa [List.length_map, List.length_map] at this
  rw [hs]
  refine ⟨rfl, rfl, rfl, h ▸ .refl _, fun seg hseg => .inr ?_, fun hn => ?_⟩
  · have hmem : seg.core ∈ s'.sndBuf.map Segment.core := h ▸ List.mem_map_of_mem hseg
    obtain ⟨seg', hseg', hcore⟩ := List.mem_map.1 hmem
    exact ⟨seg', hseg', congrArg Core.sn hcore⟩
  · show s.nsndBuf = _
    rw [hn, hlen]

theorem ikcpParseUna_shrunk {una : UInt32}
    (h : ∀ seg ∈ kcp.sndBuf, 0 < itimediff una seg.sn → P seg.sn.toNat) :
    Shrunk P kcp.sendSide (ikcpParseUna kcp una).sendSide := by
  obtain ⟨k, heq, hk, hall⟩ := removeUna_spec una kcp.sndBuf kcp.nsndBuf
  unfold ikcpParseUna
  rw [heq]
  refine ⟨rfl, rfl, rfl, (List.drop_sublist k _).map _, fun seg hs => ?_, fun hn => ?_⟩
  · have hs' : seg ∈ kcp.sndBuf.take k ++ kcp.sndBuf.drop k := by
      rw [List.take_append_drop]
      exact hs
    obtain hs' | hs' := List.mem_append.1 hs'
    · exact .inl (h seg hs (hall seg hs'))
    · exact .inr ⟨seg, hs', rfl⟩
  · have hn : kcp.nsndBuf = UInt32.ofNat kcp.sndBuf.length := hn
    show kcp.nsndBuf - UInt32.ofNat k = UInt32.ofNat (kcp.sndBuf.drop k).length
    rw [List.length_drop, hn, UInt32.ofNat_sub hk]

theorem ikcpParseAck_shrunk {sn : UInt32} (h : P sn.toNat) :
    Shrunk P kcp.sendSide (ikcpParseAck kcp sn).sendSide := by
  unfold ikcpParseAck
  split_ifs
  · exact .refl _ _
  · obtain ⟨hsub, hkept, hcount⟩ := removeAcked_spec sn kcp.sndBuf kcp.nsndBuf
    refine ⟨rfl, rfl, rfl, hsub.map _, fun seg hs => ?_, fun hn => ?_⟩
    · obtain hsn | hs := hkept seg hs
      · exact .inl (hsn ▸ h)
      · exact .inr ⟨seg, hs, rfl⟩
    · have hn : kcp.nsndBuf = UInt32.ofNat kcp.sndBuf.length := hn
      rw [hn] at hcount
      show (removeAcked sn kcp.sndBuf kcp.nsndBuf).2 = UInt32.ofNat (removeAcked sn kcp.sndBuf kcp.nsndBuf).1.length
      rw [hn]
      grind

theorem ikcpParseFastack_shrunk (sn ts : UInt32) :
    Shrunk P kcp.sendSide (ikcpParseFastack kcp sn ts).sendSide := by
  unfold ikcpParseFastack
  split_ifs
  · exact .refl _ _
  · exact .of_core (core_countSkipped sn ts kcp.sndBuf) rfl

theorem ikcpParseFastack_frame (kcp : Ikcpcb) (sn ts : UInt32) :
    (kcp.UnaOk → (ikcpParseFastack kcp sn ts).UnaOk) ∧
      (ikcpParseFastack kcp sn ts).config = kcp.config ∧
      (ikcpParseFastack kcp sn ts).recvSide = kcp.recvSide ∧
      (ikcpParseFastack kcp sn ts).acklist = kcp.acklist := by
  unfold ikcpParseFastack
  split_ifs
  · exact ⟨id, rfl, rfl, rfl⟩
  · refine ⟨fun hu => ?_, rfl, rfl, rfl⟩
    -- the first segment has the same number
    have hhead := congrArg List.head? (core_countSkipped sn ts kcp.sndBuf)
    rw [List.head?_map, List.head?_map] at hhead
    have hsn := congrArg (Option.map Core.sn) hhead
    rw [Option.map_map, Option.map_map] at hsn
    have hsn' : (countSkipped sn ts kcp.sndBuf).head?.map Segment.sn = kcp.sndBuf.head?.map Segment.sn := hsn
    show kcp.sndUna = ((countSkipped sn ts kcp.sndBuf).head?.map Segment.sn).getD kcp.sndNxt
    rw [hsn']
    exact hu

/-! ## Packets -/

/-- What the other side may put on the wire: `hist` are the pieces it numbered, and `P` tells which
numbers of ours it has. -/
structure Packet (conv : UInt32) (hist : List (Piece UInt8)) (P : Nat → Prop) (seg : Segment) :
    Prop where
  conv : seg.conv = conv
  una_lt : seg.una.toNat < 2 ^ 31
  una : ∀ k < seg.una.toNat, P k
  length_lt : seg.data.length < 2 ^ 31
  cmd : (seg.cmd = IKCP_CMD_PUSH.toUInt32 ∧ hist[seg.sn.toNat]? = some seg.piece ∧
      seg.frg.toNat < 256) ∨
    (seg.cmd = IKCP_CMD_ACK.toUInt32 ∧ P seg.sn.toNat) ∨
    seg.cmd = IKCP_CMD_WASK.toUInt32 ∨ seg.cmd = IKCP_CMD_WINS.toUInt32

theorem Packet.wire {conv : UInt32} {hist : List (Piece UInt8)} {seg : Segment}
    (h : Packet conv hist P seg) : Wire conv seg :=
  ⟨h.conv, h.cmd.imp (fun h => h.1) (Or.imp_left fun h => h.1), h.length_lt⟩

/-- A packet stays one while more is numbered and more arrives. -/
theorem Packet.mono {conv : UInt32} {hist : List (Piece UInt8)} {P' : Nat → Prop} {seg : Segment}
    (h : Packet conv hist P seg) (new : List (Piece UInt8)) (hP : ∀ k, P k → P' k) :
    Packet conv (hist ++ new) P' seg where
  conv := h.conv
  una_lt := h.una_lt
  una k hk := hP k (h.una k hk)
  length_lt := h.length_lt
  cmd := by
    refine h.cmd.imp (fun ⟨hc, hp, hf⟩ => ⟨hc, ?_, hf⟩) (Or.imp_left fun ⟨hc, hp⟩ => ⟨hc, hP _ hp⟩)
    rw [List.getElem?_append_left (List.getElem?_eq_some_iff.1 hp).1, hp]

/-- What is left of a control block after packets of the other side. -/
structure Heeded (P : Nat → Prop) (hist consumed : List (Piece UInt8)) (kcp kcp' : Ikcpcb) :
    Prop where
  config : kcp'.config = kcp.config
  sendSide : Shrunk P kcp.sendSide kcp'.sendSide
  una : kcp.UnaOk → kcp'.UnaOk
  recvSide : RecvOk hist consumed kcp'.rcvWnd kcp'.recvSide
  rcvNxt_le : kcp.rcvNxt.toNat ≤ kcp'.rcvNxt.toNat
  has : ∀ k, kcp.recvSide.Has k → kcp'.recvSide.Has k
  settled : Settled kcp → Settled kcp'
  acks : ∀ p ∈ kcp'.acklist, p ∈ kcp.acklist ∨ kcp'.recvSide.Has p.1.toNat

variable {hist consumed : List (Piece UInt8)}

theorem Settled.congr (hc : kcp'.config = kcp.config) (hr : kcp'.recvSide = kcp.recvSide)
    (h : Settled kcp) : Settled kcp' := by
  intro seg rest hbuf hsn
  have hwnd : kcp'.rcvWnd = kcp.rcvWnd := congrArg Config.rcvWnd hc
  have hque : kcp'.nrcvQue = kcp.nrcvQue := congrArg RecvSide.nrcvQue hr
  rw [hwnd, hque]
  exact h seg rest ((congrArg RecvSide.rcvBuf hr).symm.trans hbuf)
    (hsn.trans (congrArg RecvSide.rcvNxt hr))

namespace Heeded

theorem trans {kcp'' : Ikcpcb} (h : Heeded P hist consumed kcp kcp')
    (h' : Heeded P hist consumed kcp' kcp'') : Heeded P hist consumed kcp kcp'' where
  config := h'.config.trans h.config
  sendSide := h.sendSide.trans h'.sendSide
  una hu := h'.una (h.una hu)
  recvSide := h'.recvSide
  rcvNxt_le := h.rcvNxt_le.trans h'.rcvNxt_le
  has k hk := h'.has k (h.has k hk)
  settled hs := h'.settled (h.settled hs)
  acks p hp := by
    obtain hp | hp := h'.acks p hp
    · exact (h.acks p hp).imp id (h'.has _)
    · exact .inr hp

/-- The receiving side stays. -/
theorem of_shrunk (hok : RecvOk hist consumed kcp.rcvWnd kcp.recvSide) (hc : kcp'.config = kcp.config)
    (hs : Shrunk P kcp.sendSide kcp'.sendSide) (hu : kcp.UnaOk → kcp'.UnaOk)
    (hr : kcp'.recvSide = kcp.recvSide) (ha : kcp'.acklist = kcp.acklist) :
    Heeded P hist consumed kcp kcp' where
  config := hc
  sendSide := hs
  una := hu
  recvSide := by
    have hwnd : kcp'.rcvWnd = kcp.rcvWnd := congrArg Config.rcvWnd hc
    rw [hwnd, hr]
    exact hok
  rcvNxt_le := by
    have hnxt : kcp'.rcvNxt = kcp.rcvNxt := congrArg RecvSide.rcvNxt hr
    rw [hnxt]
  has k hk := hr ▸ hk
  settled := .congr hc hr
  acks p hp := .inl (ha ▸ hp)

theorem of_sameParts (hok : RecvOk hist consumed kcp.rcvWnd kcp.recvSide) (h : SameParts kcp kcp') :
    Heeded P hist consumed kcp kcp' :=
  of_shrunk hok h.config (.of_eq h.sendSide) (fun hu => hu.congr h.sendSide h.sndUna) h.recvSide h.acklist

end Heeded

/-- Data of the other side is acknowledged only when it is kept. -/
theorem inputPush_spec {newseg : Segment} (hok : RecvOk hist consumed kcp.rcvWnd kcp.recvSide)
    (hshort : hist.length < 2 ^ 31) (hwnd : kcp.rcvWnd.toNat < 2 ^ 31)
    (hpiece : hist[newseg.sn.toNat]? = some newseg.piece)
    (hroom : itimediff newseg.sn (kcp.rcvNxt + kcp.rcvWnd) < 0) (ts : UInt32) :
    Heeded P hist consumed kcp
      (if 0 ≤ itimediff newseg.sn kcp.rcvNxt then
        ikcpParseData (ikcpAckPush kcp newseg.sn ts) newseg
      else ikcpAckPush kcp newseg.sn ts) := by
  have hsn : newseg.sn.toNat < hist.length := (List.getElem?_eq_some_iff.1 hpiece).1
  have hnxt : kcp.rcvNxt.toNat ≤ hist.length := hok.rcvNxt_le
  have hnear : Near newseg.sn kcp.rcvNxt := near_of_lt (by omega) (by omega)
  have hacks : ∀ p ∈ (ikcpAckPush kcp newseg.sn ts).acklist,
      p ∈ kcp.acklist ∨ p = (newseg.sn, ts) := fun p hp =>
    (List.mem_append.1 hp).imp id List.mem_singleton.1
  split_ifs with hnew
  · obtain ⟨hok', hadv, hset, hhas⟩ :=
      @ikcpParseData_spec _ _ (ikcpAckPush kcp newseg.sn ts) _ hok hshort hwnd hpiece
    have hge := (serialDiff_nonneg hnear).1 hnew
    have hend : (kcp.rcvNxt + kcp.rcvWnd).toNat = kcp.rcvNxt.toNat + kcp.rcvWnd.toNat := by
      rw [UInt32.toNat_add]
      exact Nat.mod_eq_of_lt (by omega)
    have hnear' : Near newseg.sn (kcp.rcvNxt + kcp.rcvWnd) := by
      refine ⟨?_, ?_⟩ <;> rw [hend] <;> omega
    have hlt := (serialDiff_neg hnear').1 hroom
    rw [hend] at hlt
    have hwnd' : (ikcpParseData (ikcpAckPush kcp newseg.sn ts) newseg).rcvWnd = kcp.rcvWnd :=
      congrArg Config.rcvWnd hadv.config
    have huna : kcp.UnaOk → (ikcpParseData (ikcpAckPush kcp newseg.sn ts) newseg).UnaOk := fun hu =>
      hu.congr hadv.sendSide hadv.sndUna
    refine ⟨hadv.config, .of_eq hadv.sendSide, huna, hwnd'.symm ▸ hok', hadv.rcvNxt_le, hadv.has, hset,
      fun p hp => ?_⟩
    rw [hadv.acklist] at hp
    obtain hp | rfl := hacks p hp
    · exact .inl hp
    · exact .inr (hhas hlt)
  · refine ⟨rfl, .refl _ _, fun hu => hu.congr rfl rfl, hok, Nat.le_refl _, fun _ h => h, id,
      fun p hp => ?_⟩
    obtain hp | rfl := hacks p hp
    · exact .inl hp
    · exact .inr (.inl ((serialDiff_neg hnear).1 (Int.not_le.1 hnew)))

/-- An acknowledgement of something that the other side has. -/
theorem inputAck_spec {sn : UInt32} (hok : RecvOk hist consumed kcp.rcvWnd kcp.recvSide)
    (h : P sn.toNat) : Heeded P hist consumed kcp (ikcpShrinkBuf (ikcpParseAck kcp sn)) := by
  obtain ⟨hu', hc', hs', hr', ha'⟩ := ikcpShrinkBuf_spec (ikcpParseAck kcp sn)
  obtain ⟨hc, hr, ha⟩ := ikcpParseAck_frame kcp sn
  exact .of_shrunk hok (hc'.trans hc) ((ikcpParseAck_shrunk h).trans (.of_eq hs')) (fun _ => hu')
    (hr'.trans hr) (ha'.trans ha)

/-- One packet. -/
theorem inputSegment_spec {seg : Segment} (mark : AckMark)
    (hok : RecvOk hist consumed kcp.rcvWnd kcp.recvSide) (hshort : hist.length < 2 ^ 31)
    (hwnd : kcp.rcvWnd.toNat < 2 ^ 31) (hsnd : ∀ s ∈ kcp.sndBuf, s.sn.toNat < 2 ^ 31)
    (hp : Packet kcp.conv hist P seg) :
    Heeded P hist consumed kcp (inputSegment kcp mark seg.header seg.data).1 := by
  let kcp₀ : Ikcpcb := { kcp with rmtWnd := seg.header.wnd.toUInt32 }
  obtain ⟨kcp₁, hkcp₁⟩ : ∃ k, k = ikcpShrinkBuf (ikcpParseUna kcp₀ seg.una) := ⟨_, rfl⟩
  have huna : Shrunk P kcp₀.sendSide (ikcpParseUna kcp₀ seg.una).sendSide :=
    ikcpParseUna_shrunk fun s hs hlt =>
      hp.una _ ((serialDiff_pos (near_of_lt hp.una_lt (hsnd s hs).le)).1 hlt)
  obtain ⟨hu', hc', hs', hr', ha'⟩ := hkcp₁ ▸ ikcpShrinkBuf_spec (ikcpParseUna kcp₀ seg.una)
  have h₁ : Heeded P hist consumed kcp kcp₁ :=
    .of_shrunk hok hc' (huna.trans (.of_eq hs')) (fun _ => hu') hr' ha'
  have hconf : kcp₁.rcvWnd = kcp.rcvWnd ∧ kcp₁.conv = kcp.conv :=
    ⟨congrArg Config.rcvWnd h₁.config, congrArg Config.conv h₁.config⟩
  have hcmd : seg.header.cmd = seg.cmd.toUInt8 := rfl
  unfold inputSegment
  dsimp only
  rw [show ikcpShrinkBuf (ikcpParseUna { kcp with rmtWnd := seg.header.wnd.toUInt32 } seg.header.una) =
    kcp₁ from hkcp₁.symm, hcmd]
  obtain ⟨hc, hpiece, hfrg⟩ | ⟨hc, hack⟩ | hc | hc := hp.cmd
  · rw [hc, if_neg (by decide), if_pos (by decide)]
    by_cases hroom : itimediff seg.header.sn (kcp₁.rcvNxt + kcp₁.rcvWnd) < 0
    · -- the segment that is kept is the one that was sent
      let newseg : Segment := {
        conv := seg.header.conv
        cmd := IKCP_CMD_PUSH.toUInt32.toUInt8.toUInt32
        frg := seg.header.frg.toUInt32
        wnd := seg.header.wnd.toUInt32
        ts := seg.header.ts
        sn := seg.header.sn
        una := seg.header.una
        data := seg.data }
      have hfrg' : newseg.frg = seg.frg := by
        apply UInt32.toNat_inj.1
        show (seg.frg.toUInt8.toUInt32).toNat = _
        rw [UInt8.toNat_toUInt32, UInt32.toNat_toUInt8]
        exact Nat.mod_eq_of_lt hfrg
      have hnew : hist[newseg.sn.toNat]? = some newseg.piece := by
        rw [Segment.piece, hfrg']
        exact hpiece
      have hpush := @inputPush_spec P kcp₁ _ _ newseg h₁.recvSide hshort (hconf.1 ▸ hwnd) hnew hroom
        seg.header.ts
      rw [if_pos hroom]
      by_cases hnext : 0 ≤ itimediff seg.header.sn kcp₁.rcvNxt
      · rw [if_pos hnext] at hpush
        have hnext' : 0 ≤ itimediff seg.header.sn (ikcpAckPush kcp₁ seg.header.sn seg.header.ts).rcvNxt :=
          hnext
        rw [if_pos hnext']
        exact h₁.trans hpush
      · rw [if_neg hnext] at hpush
        have hnext' : ¬ 0 ≤ itimediff seg.header.sn
            (ikcpAckPush kcp₁ seg.header.sn seg.header.ts).rcvNxt := hnext
        rw [if_neg hnext']
        exact h₁.trans hpush
    · rw [if_neg hroom]
      exact h₁
  · rw [hc, if_pos (by decide)]
    dsimp only
    split_ifs
    · have hupd : Heeded P hist consumed kcp₁ (ikcpUpdateAck kcp₁
          (Int32.ofInt (itimediff kcp₁.current seg.header.ts))) :=
        .of_sameParts h₁.recvSide (.updateAck _ _)
      exact h₁.trans (hupd.trans (inputAck_spec hupd.recvSide hack))
    · exact h₁.trans (inputAck_spec h₁.recvSide hack)
  · rw [hc, if_neg (by decide), if_neg (by decide), if_pos (by decide)]
    exact h₁.trans (.of_sameParts h₁.recvSide ⟨rfl, rfl, rfl, rfl, rfl⟩)
  · rw [hc, if_neg (by decide), if_neg (by decide), if_neg (by decide)]
    exact h₁

/-- All the packets of a datagram. -/
theorem inputAll_spec {segs : List Segment} (mark : AckMark)
    (hok : RecvOk hist consumed kcp.rcvWnd kcp.recvSide) (hshort : hist.length < 2 ^ 31)
    (hwnd : kcp.rcvWnd.toNat < 2 ^ 31) (hsnd : ∀ s ∈ kcp.sndBuf, s.sn.toNat < 2 ^ 31)
    (hp : ∀ seg ∈ segs, Packet kcp.conv hist P seg) :
    Heeded P hist consumed kcp (inputAll kcp mark segs).1 := by
  induction segs generalizing kcp mark with
  | nil => exact .of_sameParts hok (.refl kcp)
  | cons seg rest ih =>
    have hone := inputSegment_spec mark hok hshort hwnd hsnd (hp seg List.mem_cons_self)
    rw [inputAll]
    generalize inputSegment kcp mark seg.header seg.data = res at hone
    obtain ⟨kcp', mark'⟩ := res
    have hconv : kcp'.conv = kcp.conv := congrArg Config.conv hone.config
    have hwnd' : kcp'.rcvWnd = kcp.rcvWnd := congrArg Config.rcvWnd hone.config
    have hsnd' : ∀ s ∈ kcp'.sndBuf, s.sn.toNat < 2 ^ 31 := by
      intro s hs
      obtain ⟨s', hs', hcore⟩ := hone.sendSide.exists_core hs
      have hsn : s'.sn = s.sn := congrArg Core.sn hcore
      exact hsn ▸ hsnd s' hs'
    exact hone.trans (ih mark' hone.recvSide (hwnd' ▸ hwnd) hsnd'
      fun s hs => hconv ▸ hp s (List.mem_cons_of_mem _ hs))

/-- A datagram of packets of the other side is taken whole. Nothing that the other side does not have
leaves `snd_buf`, and nothing that does not arrive is acknowledged. -/
theorem ikcpInput_spec {mtu : Nat} {segs : List Segment} (hd : Datagram mtu segs)
    (hok : RecvOk hist consumed kcp.rcvWnd kcp.recvSide) (hshort : hist.length < 2 ^ 31)
    (hwnd : kcp.rcvWnd.toNat < 2 ^ 31) (hsnd : ∀ s ∈ kcp.sndBuf, s.sn.toNat < 2 ^ 31)
    (hp : ∀ seg ∈ segs, Packet kcp.conv hist P seg) :
    (ikcpInput kcp (encodeAll segs)).1 = 0 ∧
      Heeded P hist consumed kcp (ikcpInput kcp (encodeAll segs)).2 := by
  have hlen : ¬ (encodeAll segs).length < IKCP_OVERHEAD.toNat := by
    obtain ⟨seg, rest, rfl⟩ := List.exists_cons_of_ne_nil hd.ne_nil
    rw [encodeAll_cons, List.length_append, length_ikcpEncodeSeg]
    exact Nat.not_lt.2 (Nat.le_add_right _ _)
  have hall := inputAll_spec {} hok hshort hwnd hsnd hp
  unfold ikcpInput
  rw [if_neg hlen, ikcpInputLoop_encodeAll {} (fun seg hs => (hp seg hs).wire) (length_le_encodeAll segs)]
  generalize inputAll kcp {} segs = res at hall
  obtain ⟨kcp', mark⟩ := res
  dsimp only
  rw [if_neg (not_not.2 rfl)]
  refine ⟨rfl, hall.trans ?_⟩
  have hfast : Heeded P hist consumed kcp' (if mark.flag = true then
      ikcpParseFastack kcp' mark.maxack mark.latestTs else kcp') := by
    split_ifs
    · obtain ⟨hu, hc, hr, ha⟩ := ikcpParseFastack_frame kcp' mark.maxack mark.latestTs
      exact .of_shrunk hall.recvSide hc (ikcpParseFastack_shrunk _ _) hu hr ha
    · exact .of_sameParts hall.recvSide (.refl kcp')
  exact hfast.trans (.of_sameParts hfast.recvSide (.growCwnd _ _))

end FwkMlib.Kcp
