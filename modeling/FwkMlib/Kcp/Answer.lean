import FwkMlib.Kcp.Input

/-!
# What a datagram brings about

Whatever else is in it, some segments of a datagram have an effect for sure.

* `inputAll_owes` : data within the window is acknowledged later on;
* `inputAll_tell` : a window that was asked for will be told;
* `inputAll_acked` : segments that acknowledge everything empty `snd_buf`, and tell the window.
-/

namespace FwkMlib.Kcp
open FwkMlib.Lib

/-! ## What a datagram brings about -/

/-- What a party knows of the other one, and owes it, is the same. -/
structure SamePeer (kcp kcp' : Ikcpcb) : Prop where
  rmtWnd : kcp'.rmtWnd = kcp.rmtWnd
  probe : kcp'.probe = kcp.probe
  acklist : kcp'.acklist = kcp.acklist

namespace SamePeer

variable {kcp kcp' kcp'' : Ikcpcb}

theorem refl (kcp : Ikcpcb) : SamePeer kcp kcp := ⟨rfl, rfl, rfl⟩

theorem trans (h : SamePeer kcp kcp') (h' : SamePeer kcp' kcp'') : SamePeer kcp kcp'' :=
  ⟨h'.1.trans h.1, h'.2.trans h.2, h'.3.trans h.3⟩

theorem shrinkBuf (kcp : Ikcpcb) : SamePeer kcp (ikcpShrinkBuf kcp) := by
  unfold ikcpShrinkBuf
  split <;> exact ⟨rfl, rfl, rfl⟩

theorem parseAck (kcp : Ikcpcb) (sn : UInt32) : SamePeer kcp (ikcpParseAck kcp sn) := by
  unfold ikcpParseAck
  split_ifs <;> exact ⟨rfl, rfl, rfl⟩

theorem parseFastack (kcp : Ikcpcb) (sn ts : UInt32) : SamePeer kcp (ikcpParseFastack kcp sn ts) := by
  unfold ikcpParseFastack
  split_ifs <;> exact ⟨rfl, rfl, rfl⟩

theorem moveAvailable (segs : List Segment) (kcp : Ikcpcb) : SamePeer kcp (moveAvailable segs kcp) := by
  induction segs generalizing kcp with
  | nil => exact refl kcp
  | cons seg rest ih =>
    rw [Kcp.moveAvailable]
    split_ifs
    · refine trans ?_ (ih _)
      exact ⟨rfl, rfl, rfl⟩
    · exact refl kcp

theorem parseData (kcp : Ikcpcb) (newseg : Segment) : SamePeer kcp (ikcpParseData kcp newseg) := by
  unfold ikcpParseData
  split_ifs
  · exact refl kcp
  · refine trans ?_ (moveAvailable _ _)
    split <;> exact ⟨rfl, rfl, rfl⟩

theorem stepCwnd (kcp : Ikcpcb) : SamePeer kcp (stepCwnd kcp) := by
  unfold Kcp.stepCwnd
  split_ifs <;> exact ⟨rfl, rfl, rfl⟩

theorem growCwnd (kcp : Ikcpcb) (prevUna : UInt32) : SamePeer kcp (growCwnd kcp prevUna) := by
  unfold Kcp.growCwnd
  dsimp only
  split_ifs
  · exact (stepCwnd kcp).trans ⟨rfl, rfl, rfl⟩
  · exact stepCwnd kcp
  · exact refl kcp

end SamePeer

theorem or_tell_and_tell (probe : UInt32) : (probe ||| IKCP_ASK_TELL) &&& IKCP_ASK_TELL ≠ 0 := by
  intro h
  have hbit := congrArg (fun n => n.toBitVec.getLsbD 1) h
  simp [IKCP_ASK_TELL] at hbit

variable {kcp : Ikcpcb} {seg : Segment} {segs : List Segment} {mark : AckMark}

/-- Every segment tells the window of the other side; an acknowledgement that is owed stays owed, and a
window that was asked for will be told. -/
theorem inputSegment_peer (kcp : Ikcpcb) (mark : AckMark) (h : Header) (data : List UInt8) :
    (inputSegment kcp mark h data).1.rmtWnd = h.wnd.toUInt32 ∧
      (∀ p ∈ kcp.acklist, p ∈ (inputSegment kcp mark h data).1.acklist) ∧
      (kcp.probe &&& IKCP_ASK_TELL ≠ 0 →
        (inputSegment kcp mark h data).1.probe &&& IKCP_ASK_TELL ≠ 0) ∧
      (h.cmd = IKCP_CMD_WASK → (inputSegment kcp mark h data).1.probe &&& IKCP_ASK_TELL ≠ 0) := by
  obtain ⟨kcp₁, hkcp₁⟩ : ∃ k, k = ikcpShrinkBuf (ikcpParseUna { kcp with rmtWnd := h.wnd.toUInt32 } h.una) :=
    ⟨_, rfl⟩
  have h₁ : SamePeer { kcp with rmtWnd := h.wnd.toUInt32 } kcp₁ := by
    have huna : SamePeer { kcp with rmtWnd := h.wnd.toUInt32 }
        (ikcpParseUna { kcp with rmtWnd := h.wnd.toUInt32 } h.una) := ⟨rfl, rfl, rfl⟩
    rw [hkcp₁]
    exact huna.trans (.shrinkBuf _)
  have hacks : kcp₁.acklist = kcp.acklist := h₁.acklist
  have hprobe : kcp₁.probe = kcp.probe := h₁.probe
  have hsame {kcp' : Ikcpcb} (h' : SamePeer kcp₁ kcp') (hcmd : h.cmd ≠ IKCP_CMD_WASK) :
      kcp'.rmtWnd = h.wnd.toUInt32 ∧ (∀ p ∈ kcp.acklist, p ∈ kcp'.acklist) ∧
        (kcp.probe &&& IKCP_ASK_TELL ≠ 0 → kcp'.probe &&& IKCP_ASK_TELL ≠ 0) ∧
        (h.cmd = IKCP_CMD_WASK → kcp'.probe &&& IKCP_ASK_TELL ≠ 0) := by
    refine ⟨h'.rmtWnd.trans h₁.rmtWnd, fun p hp => ?_, fun ht => ?_, fun hc => absurd hc hcmd⟩
    · rw [h'.acklist, hacks]
      exact hp
    · rw [h'.probe, hprobe]
      exact ht
  -- the same with one more acknowledgement owed
  have hpush {kcp' : Ikcpcb} (h' : SamePeer (ikcpAckPush kcp₁ h.sn h.ts) kcp')
      (hcmd : h.cmd ≠ IKCP_CMD_WASK) :
      kcp'.rmtWnd = h.wnd.toUInt32 ∧ (∀ p ∈ kcp.acklist, p ∈ kcp'.acklist) ∧
        (kcp.probe &&& IKCP_ASK_TELL ≠ 0 → kcp'.probe &&& IKCP_ASK_TELL ≠ 0) ∧
        (h.cmd = IKCP_CMD_WASK → kcp'.probe &&& IKCP_ASK_TELL ≠ 0) := by
    refine ⟨h'.rmtWnd.trans h₁.rmtWnd, fun p hp => ?_, fun ht => ?_, fun hc => absurd hc hcmd⟩
    · rw [h'.acklist]
      show p ∈ kcp₁.acklist ++ _
      rw [hacks]
      exact List.mem_append_left _ hp
    · rw [h'.probe]
      show kcp₁.probe &&& _ ≠ 0
      rw [hprobe]
      exact ht
  unfold inputSegment
  rw [← hkcp₁]
  dsimp only
  split_ifs with hack htime hcmd hroom hnext hask
  · refine hsame (.trans (.trans ?_ (.parseAck _ _)) (.shrinkBuf _)) (by rw [hack]; decide)
    exact ⟨rfl, rfl, rfl⟩
  · exact hsame (.trans (.parseAck _ _) (.shrinkBuf _)) (by rw [hack]; decide)
  · exact hpush (.parseData _ _) (by rw [hcmd]; decide)
  · exact hpush (.refl _) (by rw [hcmd]; decide)
  · exact hsame (.refl _) (by rw [hcmd]; decide)
  · refine ⟨h₁.rmtWnd, fun p hp => hacks ▸ hp, fun _ => ?_, fun _ => ?_⟩ <;> exact or_tell_and_tell _
  · exact hsame (.refl _) hask

/-- Data within the window is acknowledged. -/
theorem inputSegment_owes {h : Header} (mark : AckMark) (data : List UInt8)
    (hcmd : h.cmd = IKCP_CMD_PUSH) (hroom : itimediff h.sn (kcp.rcvNxt + kcp.rcvWnd) < 0) :
    (h.sn, h.ts) ∈ (inputSegment kcp mark h data).1.acklist := by
  obtain ⟨kcp₁, hkcp₁⟩ : ∃ k, k = ikcpShrinkBuf (ikcpParseUna { kcp with rmtWnd := h.wnd.toUInt32 } h.una) :=
    ⟨_, rfl⟩
  obtain ⟨-, hc, -, hr, -⟩ :=
    hkcp₁ ▸ ikcpShrinkBuf_spec (ikcpParseUna { kcp with rmtWnd := h.wnd.toUInt32 } h.una)
  have hnxt : kcp₁.rcvNxt = kcp.rcvNxt := congrArg RecvSide.rcvNxt hr
  have hwnd : kcp₁.rcvWnd = kcp.rcvWnd := congrArg Config.rcvWnd hc
  have hmem : (h.sn, h.ts) ∈ (ikcpAckPush kcp₁ h.sn h.ts).acklist :=
    List.mem_append_right _ (List.mem_singleton_self _)
  unfold inputSegment
  rw [← hkcp₁, hcmd, if_neg (by decide), if_pos rfl, hnxt, hwnd, if_pos hroom]
  dsimp only
  split_ifs
  · rw [(SamePeer.parseData _ _).acklist]
    exact hmem
  · exact hmem

theorem moveAvailable_sendSide (segs : List Segment) (kcp : Ikcpcb) :
    (moveAvailable segs kcp).sendSide = kcp.sendSide := by
  induction segs generalizing kcp with
  | nil => rfl
  | cons seg rest ih =>
    rw [moveAvailable]
    split_ifs
    · exact ih _
    · rfl

theorem ikcpParseData_sendSide (kcp : Ikcpcb) (newseg : Segment) :
    (ikcpParseData kcp newseg).sendSide = kcp.sendSide := by
  unfold ikcpParseData
  split_ifs
  · rfl
  · rw [moveAvailable_sendSide]
    split <;> rfl

theorem removeUna_all {una : UInt32} (h : ∀ seg ∈ segs, 0 < itimediff una seg.sn) (n : UInt32) :
    (removeUna una segs n).1 = [] := by
  induction segs generalizing n with
  | nil => rfl
  | cons seg rest ih =>
    rw [removeUna, if_pos (h seg List.mem_cons_self)]
    exact ih (fun s hs => h s (List.mem_cons_of_mem _ hs)) _

/-- A segment whose `una` is past all of `snd_buf` empties it. -/
theorem inputSegment_empties {h : Header} (mark : AckMark) (data : List UInt8)
    (hall : ∀ seg ∈ kcp.sndBuf, 0 < itimediff h.una seg.sn) :
    (inputSegment kcp mark h data).1.sndBuf = [] := by
  obtain ⟨kcp₁, hkcp₁⟩ : ∃ k, k = ikcpShrinkBuf (ikcpParseUna { kcp with rmtWnd := h.wnd.toUInt32 } h.una) :=
    ⟨_, rfl⟩
  have hbuf : kcp₁.sndBuf = [] := by
    obtain ⟨-, -, hs, -, -⟩ :=
      hkcp₁ ▸ ikcpShrinkBuf_spec (ikcpParseUna { kcp with rmtWnd := h.wnd.toUInt32 } h.una)
    exact (congrArg SendSide.sndBuf hs).trans (removeUna_all hall _)
  have hack {k : Ikcpcb} (hk : k.sndBuf = []) : (ikcpShrinkBuf (ikcpParseAck k h.sn)).sndBuf = [] := by
    refine (congrArg SendSide.sndBuf (ikcpShrinkBuf_spec _).2.2.1).trans ?_
    show (ikcpParseAck k h.sn).sndBuf = []
    unfold ikcpParseAck
    rw [hk]
    split_ifs
    · exact hk
    · rfl
  unfold inputSegment
  rw [← hkcp₁]
  dsimp only
  split_ifs
  · exact hack hbuf
  · exact hack hbuf
  · exact (congrArg SendSide.sndBuf (ikcpParseData_sendSide _ _)).trans hbuf
  all_goals exact hbuf

/-! ### The segments of a datagram -/

theorem inputAll_peer (kcp : Ikcpcb) (mark : AckMark) (segs : List Segment) :
    (∀ p ∈ kcp.acklist, p ∈ (inputAll kcp mark segs).1.acklist) ∧
      (kcp.probe &&& IKCP_ASK_TELL ≠ 0 →
        (inputAll kcp mark segs).1.probe &&& IKCP_ASK_TELL ≠ 0) := by
  induction segs generalizing kcp mark with
  | nil => exact ⟨fun _ hp => hp, id⟩
  | cons seg rest ih =>
    obtain ⟨-, hacks, htell, -⟩ := inputSegment_peer kcp mark seg.header seg.data
    rw [inputAll]
    generalize inputSegment kcp mark seg.header seg.data = res at hacks htell
    obtain ⟨kcp', mark'⟩ := res
    obtain ⟨hacks', htell'⟩ := ih kcp' mark'
    exact ⟨fun p hp => hacks' p (hacks p hp), fun ht => htell' (htell ht)⟩

theorem inputAll_tell (kcp : Ikcpcb) (mark : AckMark) (hs : seg ∈ segs)
    (hcmd : seg.cmd = IKCP_CMD_WASK.toUInt32) :
    (inputAll kcp mark segs).1.probe &&& IKCP_ASK_TELL ≠ 0 := by
  induction segs generalizing kcp mark with
  | nil => cases hs
  | cons s rest ih =>
    have hpeer := inputSegment_peer kcp mark s.header s.data
    rw [inputAll]
    generalize inputSegment kcp mark s.header s.data = res at hpeer
    obtain ⟨kcp', mark'⟩ := res
    obtain rfl | hs := List.mem_cons.1 hs
    · refine (inputAll_peer kcp' mark' rest).2 (hpeer.2.2.2 ?_)
      show seg.cmd.toUInt8 = _
      rw [hcmd]
      rfl
    · exact ih kcp' mark' hs

/-- The other side has everything and tells its window. -/
theorem inputAll_acked {una wnd : UInt32} (kcp : Ikcpcb) (mark : AckMark) (hne : segs ≠ [])
    (hsame : ∀ s ∈ segs, s.una = una ∧ s.wnd = wnd)
    (hall : ∀ s ∈ kcp.sndBuf, 0 < itimediff una s.sn) :
    (inputAll kcp mark segs).1.sndBuf = [] ∧
      (inputAll kcp mark segs).1.rmtWnd = wnd.toUInt16.toUInt32 := by
  induction segs generalizing kcp mark with
  | nil => exact absurd rfl hne
  | cons s rest ih =>
    obtain ⟨huna, hwnd⟩ := hsame s List.mem_cons_self
    have hall' : ∀ t ∈ kcp.sndBuf, 0 < itimediff s.header.una t.sn := by
      show ∀ t ∈ kcp.sndBuf, 0 < itimediff s.una t.sn
      rwa [huna]
    have hbuf := inputSegment_empties mark s.data hall'
    have hrmt := (inputSegment_peer kcp mark s.header s.data).1
    rw [inputAll]
    generalize inputSegment kcp mark s.header s.data = res at hbuf hrmt
    obtain ⟨kcp', mark'⟩ := res
    cases rest with
    | nil => exact ⟨hbuf, hrmt.trans (hwnd ▸ rfl)⟩
    | cons s' rest' =>
      refine ih kcp' mark' (List.cons_ne_nil _ _) (fun t ht => hsame t (List.mem_cons_of_mem _ ht)) ?_
      intro t ht
      rw [show kcp'.sndBuf = [] from hbuf] at ht
      cases ht

variable {P : Nat → Prop} {hist consumed : List (Piece UInt8)}

/-- Data within the window is acknowledged, wherever in the datagram it is. -/
theorem inputAll_owes (mark : AckMark) (hok : RecvOk hist consumed kcp.rcvWnd kcp.recvSide)
    (hshort : hist.length + kcp.rcvWnd.toNat < 2 ^ 31) (hsnd : ∀ s ∈ kcp.sndBuf, s.sn.toNat < 2 ^ 31)
    (hp : ∀ s ∈ segs, Packet kcp.conv hist P s) (hs : seg ∈ segs)
    (hcmd : seg.cmd = IKCP_CMD_PUSH.toUInt32)
    (hwin : seg.sn.toNat < kcp.rcvNxt.toNat + kcp.rcvWnd.toNat) :
    (seg.sn, seg.ts) ∈ (inputAll kcp mark segs).1.acklist := by
  induction segs generalizing kcp mark with
  | nil => cases hs
  | cons s rest ih =>
    have hone := inputSegment_spec mark hok (by omega) (by omega) hsnd (hp s List.mem_cons_self)
    have howes := @inputSegment_owes kcp s.header mark s.data
    rw [inputAll]
    generalize inputSegment kcp mark s.header s.data = res at hone howes
    obtain ⟨kcp', mark'⟩ := res
    obtain rfl | hs := List.mem_cons.1 hs
    · refine (inputAll_peer kcp' mark' rest).1 _ (howes ?_ ?_)
      · show seg.cmd.toUInt8 = _
        rw [hcmd]
        rfl
      · have hnxt : kcp.rcvNxt.toNat ≤ hist.length := hok.rcvNxt_le
        have hend : (kcp.rcvNxt + kcp.rcvWnd).toNat = kcp.rcvNxt.toNat + kcp.rcvWnd.toNat := by
          rw [UInt32.toNat_add]
          exact Nat.mod_eq_of_lt (by omega)
        refine (serialDiff_neg (near_of_lt ?_ ?_)).2 ?_
        · show seg.sn.toNat < _
          omega
        · omega
        · show seg.sn.toNat < _
          omega
    · have hconv : kcp'.conv = kcp.conv := congrArg Config.conv hone.config
      have hwnd : kcp'.rcvWnd = kcp.rcvWnd := congrArg Config.rcvWnd hone.config
      have hnxt : kcp.rcvNxt.toNat ≤ kcp'.rcvNxt.toNat := hone.rcvNxt_le
      have hsnd' : ∀ t ∈ kcp'.sndBuf, t.sn.toNat < 2 ^ 31 := by
        intro t ht
        obtain ⟨t', ht', hcore⟩ := hone.sendSide.exists_core ht
        have hsn : t'.sn = t.sn := congrArg Core.sn hcore
        exact hsn ▸ hsnd t' ht'
      refine ih mark' hone.recvSide ?_ hsnd' ?_ hs ?_
      · rw [hwnd]
        exact hshort
      · exact fun t ht => hconv ▸ hp t (List.mem_cons_of_mem _ ht)
      · rw [hwnd]
        omega

/-- What follows the loop of `ikcp_input` changes none of this. -/
theorem ikcpInput_inputAll {mtu : Nat} (hd : Datagram mtu segs)
    (hw : ∀ s ∈ segs, Wire kcp.conv s) :
    SamePeer (inputAll kcp {} segs).1 (ikcpInput kcp (encodeAll segs)).2 ∧
      ((inputAll kcp {} segs).1.sndBuf = [] → (ikcpInput kcp (encodeAll segs)).2.sndBuf = []) := by
  have hlen : ¬ (encodeAll segs).length < IKCP_OVERHEAD.toNat := by
    obtain ⟨seg, rest, rfl⟩ := List.exists_cons_of_ne_nil hd.ne_nil
    rw [encodeAll_cons, List.length_append, length_ikcpEncodeSeg]
    exact Nat.not_lt.2 (Nat.le_add_right _ _)
  unfold ikcpInput
  rw [if_neg hlen, ikcpInputLoop_encodeAll {} hw (length_le_encodeAll segs)]
  generalize inputAll kcp {} segs = res
  obtain ⟨kcp', mark⟩ := res
  dsimp only
  rw [if_neg (not_not.2 rfl)]
  dsimp only
  split_ifs
  · refine ⟨(SamePeer.parseFastack _ _ _).trans (.growCwnd _ _), fun hnil => ?_⟩
    refine (congrArg SendSide.sndBuf (SameParts.growCwnd _ _).sendSide).trans ?_
    show (ikcpParseFastack kcp' _ _).sndBuf = []
    unfold ikcpParseFastack
    rw [hnil]
    split_ifs
    · exact hnil
    · rfl
  · exact ⟨.growCwnd _ _, fun hnil =>
      (congrArg SendSide.sndBuf (SameParts.growCwnd _ _).sendSide).trans hnil⟩

end FwkMlib.Kcp
