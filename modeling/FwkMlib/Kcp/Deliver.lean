import FwkMlib.Kcp.Answer
import FwkMlib.Kcp.Link

/-!
# Everything said can still be heard

From every state that two parties may reach, whatever the network has lost so far, some more calls let both
upper levels hear everything that the other one said: a piece that has a number arrives when it is sent
again, and a window that is closed opens again.

* `Inv.resend`, `Inv.ask`, `Inv.reply` : a piece is sent again; a window is asked for; it is told, and what
  has arrived is acknowledged;
* `Inv.arrive` : a piece that has a number arrives; `Inv.unblock` : a piece that has none gets one;
* `Inv.hear` : a message that has arrived is heard;
* `Link.delivers` : everything said can be heard.
-/

namespace FwkMlib.Kcp
open FwkMlib.Lib

namespace Link

variable {conv : UInt32} {c : Bool → Config} {tr : List Event} {hist : Bool → List (Piece UInt8)}
  {gs : Bool → List (List (Piece UInt8))} {w w' w'' : Link}

/-! ## Silent runs -/

/-- Some calls without anything said or heard. -/
structure Quiet (conv : UInt32) (c : Bool → Config) (tr : List Event)
    (gs : Bool → List (List (Piece UInt8))) (w w' : Link) : Prop where
  steps : Steps Step w [] w'
  inv : ∃ hist, Inv conv c tr hist gs w'
  sndNxt_le : ∀ i, (w.kcp i).sndNxt.toNat ≤ (w'.kcp i).sndNxt.toNat
  rcvNxt_le : ∀ i, (w.kcp i).rcvNxt.toNat ≤ (w'.kcp i).rcvNxt.toNat

theorem Quiet.trans (h : Quiet conv c tr gs w w') (h' : Quiet conv c tr gs w' w'') :
    Quiet conv c tr gs w w'' :=
  ⟨h.steps.trans h'.steps, h'.inv, fun i => (h.sndNxt_le i).trans (h'.sndNxt_le i),
    fun i => (h.rcvNxt_le i).trans (h'.rcvNxt_le i)⟩

theorem Quiet.refl (h : Inv conv c tr hist gs w) : Quiet conv c tr gs w w :=
  ⟨.refl, ⟨hist, h⟩, fun _ => Nat.le_refl _, fun _ => Nat.le_refl _⟩

theorem act_kcp_self (w : Link) (i : Bool) (kcp : Ikcpcb) (out : List (List UInt8)) :
    (w.act i kcp out).kcp i = kcp :=
  Function.update_self ..

theorem act_kcp_other (w : Link) (i : Bool) (kcp : Ikcpcb) (out : List (List UInt8)) :
    (w.act i kcp out).kcp (!i) = w.kcp !i :=
  Function.update_of_ne (Bool.not_ne_self i) ..

theorem act_act (w : Link) (i : Bool) (kcp kcp' : Ikcpcb) (out : List (List UInt8)) :
    (w.act i kcp []).act i kcp' out = w.act i kcp' out := by
  simp [act]

/-- What does not fall at one party falls at none. -/
theorem le_act (f : Ikcpcb → UInt32) (i : Bool) {kcp : Ikcpcb} (out : List (List UInt8))
    (h : (f (w.kcp i)).toNat ≤ (f kcp).toNat) (j : Bool) :
    (f (w.kcp j)).toNat ≤ (f ((w.act i kcp out).kcp j)).toNat := by
  obtain rfl | rfl := Bool.eq_or_eq_not j i
  · rw [act_kcp_self]
    exact h
  · rw [act_kcp_other]

/-! ## A flush at a time of our choice -/

/-- Party `i` has flushed at `current`, and put out `segs`. -/
structure FlushAt (conv : UInt32) (c : Bool → Config) (tr : List Event)
    (hist : Bool → List (Piece UInt8)) (gs : Bool → List (List (Piece UInt8))) (w : Link) (i : Bool)
    (kcp : Ikcpcb) (control data : List Segment) (w' : Link) : Prop where
  flushed : Flushed kcp (w'.kcp i) control data
  other : w'.kcp (!i) = w.kcp !i
  inv : Inv conv c tr hist gs w'
  quiet : Quiet conv c tr gs w w'
  /-- Every segment is in a datagram. -/
  batch : ∀ seg ∈ control ++ data, ∃ mtu batch, seg ∈ batch ∧ Datagram mtu batch ∧
    encodeAll batch ∈ w'.net i ∧
    ∀ s ∈ batch, s ∈ control ++ data ∧ Packet conv (hist i) (w'.kcp i).recvSide.Has s

theorem Inv.flushAt (h : Inv conv c tr hist gs w)
    (hshort : ∀ i, pieces (c i).mss.toNat (said i tr) < 2 ^ 31) (i : Bool) (current : UInt32) :
    ∃ updated tsFlush control data hist' w', FlushAt conv c tr hist' gs w i
      (tick (w.kcp i) current updated tsFlush) control data w' := by
  obtain ⟨updated, tsFlush, hup, hcases⟩ := ikcpUpdate_cases (w.kcp i) current
  have hp := sameParts_tick (w.kcp i) current updated tsFlush
  obtain ⟨kcp', batches, control, data, heq, hbatch, hflat, hf⟩ := h.exists_flush i hp hup
  obtain ⟨hist', hinv, hpackets⟩ := h.flushed hshort i hp hbatch hflat hf
  -- the update flushes, or a flush follows it
  have hsteps : Steps Step w [] (w.act i kcp' (batches.map encodeAll)) := by
    obtain hupd | hupd := hcases
    · have h₁ := Step.update i current hupd
      have h₂ : Step (w.act i (tick (w.kcp i) current updated tsFlush) []) []
          ((w.act i (tick (w.kcp i) current updated tsFlush) []).act i kcp' (batches.map encodeAll)) := by
        refine .flush i ?_
        rw [act_kcp_self]
        exact heq
      rw [act_act] at h₂
      exact (Steps.single h₁).tail h₂
    · exact .single (.update i current (hupd.trans heq))
  have hnxt : kcp'.rcvNxt = (w.kcp i).rcvNxt := congrArg RecvSide.rcvNxt hf.recvSide
  have hsnd : (w.kcp i).sndNxt.toNat ≤ kcp'.sndNxt.toNat := by
    obtain ⟨n, hn, -, hadd, -⟩ := hf.moved
    have hn' : n ≤ (w.kcp i).sndQueue.length := hn
    have hcount := (h.flow i).count.trans_lt (h.short hshort i)
    have hlen := (h.flow i).sndNxt
    have hadd' : kcp'.sndNxt = (w.kcp i).sndNxt + UInt32.ofNat n := hadd
    rw [hadd', UInt32.toNat_add, UInt32.toNat_ofNat_of_lt' (by show n < 2 ^ 32; omega),
      Nat.mod_eq_of_lt (by omega)]
    omega
  refine ⟨updated, tsFlush, control, data, hist', _, ?_, act_kcp_other _ _ _ _, hinv,
    ⟨hsteps, ⟨_, hinv⟩, le_act Ikcpcb.sndNxt i _ hsnd, le_act Ikcpcb.rcvNxt i _ (by rw [hnxt])⟩,
    fun seg hs => ?_⟩
  · rw [act_kcp_self]
    exact hf
  · obtain ⟨batch, hb, hseg⟩ := List.mem_flatten.1 (hflat ▸ hs : seg ∈ batches.flatten)
    refine ⟨_, batch, hseg, hbatch batch hb, ?_, fun s hs => ?_⟩
    · show encodeAll batch ∈ Function.update w.net i _ i
      rw [Function.update_self]
      exact List.mem_append_right _ (List.mem_map_of_mem hb)
    · have hmem : s ∈ control ++ data := hflat ▸ List.mem_flatten.2 ⟨batch, hb, hs⟩
      refine ⟨hmem, ?_⟩
      rw [act_kcp_self, hf.recvSide]
      exact hpackets s hmem

theorem Inv.deliver (h : Inv conv c tr hist gs w)
    (hshort : ∀ i, pieces (c i).mss.toNat (said i tr) < 2 ^ 31) (i : Bool) {data : List UInt8}
    (hd : data ∈ w.net (!i)) : Quiet conv c tr gs w (w.act i (ikcpInput (w.kcp i) data).2 []) := by
  have hheed := (h.heeded hshort i hd).2
  have hsnd : (ikcpInput (w.kcp i) data).2.sndNxt = (w.kcp i).sndNxt := hheed.sendSide.sndNxt
  exact ⟨.single (.input i hd), h.input hshort i hd, le_act Ikcpcb.sndNxt i _ (by rw [hsnd]),
    le_act Ikcpcb.rcvNxt i _ hheed.rcvNxt_le⟩

/-! ## Where the parties are -/

theorem Inv.rcvWnd_eq (h : Inv conv c tr hist gs w) (i : Bool) : (w.kcp i).rcvWnd = (c i).rcvWnd :=
  congrArg Config.rcvWnd (h.config i)

def Room (kcp : Ikcpcb) : Prop := kcp.nrcvQue < kcp.rcvWnd

theorem Inv.sndQueue_length (h : Inv conv c tr hist gs w) (i : Bool) :
    (w.kcp i).sndNxt.toNat + (w.kcp i).sndQueue.length = (gs i).flatten.length := by
  rw [(h.flow i).cut.flatten, List.length_append, List.length_map, (h.flow i).sndNxt]

theorem Inv.rcvQueue_length (h : Inv conv c tr hist gs w) (i : Bool) :
    ((gs i).take (heard (!i) tr).length).flatten.length + (w.kcp !i).rcvQueue.length =
      (w.kcp !i).rcvNxt.toNat := by
  have hok := (h.flow i).recvSide
  have hlen := congrArg List.length hok.queue
  have hle : (w.kcp !i).rcvNxt.toNat ≤ (hist i).length := hok.rcvNxt_le
  rw [List.length_append, List.length_map, List.length_take] at hlen
  have hmin : min (w.kcp !i).rcvNxt.toNat (hist i).length = (w.kcp !i).rcvNxt.toNat :=
    Nat.min_eq_left hle
  exact hlen.trans hmin

/-- No number was given out, and nothing arrived. -/
def Stays (w w' : Link) : Prop :=
  ∀ i, (w'.kcp i).sndNxt = (w.kcp i).sndNxt ∧ (w'.kcp i).rcvNxt = (w.kcp i).rcvNxt

theorem Stays.of_left (h : Stays w w') (h' : Stays w w'') : Stays w' w'' := fun i =>
  ⟨(h' i).1.trans (h i).1.symm, (h' i).2.trans (h i).2.symm⟩

/-- Then the queues are as long as they were. -/
theorem Stays.queues (hs : Stays w w') {hist' : Bool → List (Piece UInt8)}
    (h : Inv conv c tr hist gs w) (h' : Inv conv c tr hist' gs w') (i : Bool) :
    (w'.kcp i).sndQueue.length = (w.kcp i).sndQueue.length ∧
      (w'.kcp !i).rcvQueue.length = (w.kcp !i).rcvQueue.length := by
  have hq := h.sndQueue_length i
  have hq' := h'.sndQueue_length i
  have hr := h.rcvQueue_length i
  have hr' := h'.rcvQueue_length i
  rw [(hs i).1] at hq'
  rw [(hs !i).2] at hr'
  omega

/-- A party that comes to where it started from has stayed there on its way. -/
theorem Quiet.stays_right (h : Quiet conv c tr gs w w') (h' : Quiet conv c tr gs w' w'')
    (hs : Stays w w'') : Stays w' w'' := by
  intro i
  have hsnd := h.sndNxt_le i
  have hsnd' := h'.sndNxt_le i
  have hrcv := h.rcvNxt_le i
  have hrcv' := h'.rcvNxt_le i
  rw [(hs i).1] at hsnd'
  rw [(hs i).2] at hrcv'
  rw [(hs i).1, (hs i).2]
  exact ⟨UInt32.toNat_inj.1 (by omega), UInt32.toNat_inj.1 (by omega)⟩

/-- The piece that comes next is not at a receiver that has room for it. -/
theorem not_has_rcvNxt {kcp : Ikcpcb} {hist consumed : List (Piece UInt8)} (h : Settled kcp)
    (hok : RecvOk hist consumed kcp.rcvWnd kcp.recvSide) (hroom : Room kcp) :
    ¬ kcp.recvSide.Has kcp.rcvNxt.toNat := by
  rintro (hlt | ⟨seg, hs, hsn⟩)
  · exact Nat.lt_irrefl _ hlt
  obtain ⟨first, rest, hbuf⟩ := List.exists_cons_of_ne_nil (List.ne_nil_of_mem hs)
  have hbuf' : kcp.rcvBuf = first :: rest := hbuf
  rw [hbuf] at hs
  obtain rfl | hs := List.mem_cons.1 hs
  · exact UInt32.not_le.2 hroom (h seg rest hbuf' (UInt32.toNat_inj.1 hsn))
  · have hrising := hok.rising
    rw [hbuf] at hrising
    have hfirst := List.rel_of_pairwise_cons hrising hs
    have hge := (hok.buf first (hbuf ▸ List.mem_cons_self)).2.1
    have hge' : kcp.rcvNxt.toNat ≤ first.sn.toNat := hge
    omega

theorem Inv.room_iff (h : Inv conv c tr hist gs w) (i : Bool) :
    Room (w.kcp !i) ↔ (w.kcp !i).rcvQueue.length < (c !i).rcvWnd.toNat := by
  have hn : (w.kcp !i).nrcvQue.toNat = (w.kcp !i).rcvQueue.length := (h.flow i).recvSide.nrcvQue
  unfold Room
  rw [UInt32.lt_iff_toNat_lt, hn, h.rcvWnd_eq]

theorem Stays.room (hs : Stays w w') {hist' : Bool → List (Piece UInt8)}
    (h : Inv conv c tr hist gs w) (h' : Inv conv c tr hist' gs w') (i : Bool)
    (hroom : Room (w.kcp !i)) : Room (w'.kcp !i) := by
  rw [h'.room_iff, (hs.queues h h' i).2]
  exact (h.room_iff i).1 hroom

/-! ## Data and acknowledgements -/

theorem Inv.conv_eq (h : Inv conv c tr hist gs w) (i : Bool) : (w.kcp i).conv = conv :=
  (congrArg Config.conv (h.config i)).trans (h.ok i).conv

/-- A window that is open, and fits into its field on the wire, is told as open. -/
theorem wndUnused_ne_zero {kcp : Ikcpcb} (hroom : Room kcp)
    (hwnd : kcp.rcvWnd.toNat < 2 ^ 16) : (ikcpWndUnused kcp).toUInt16.toUInt32 ≠ 0 := by
  have hroom' : kcp.nrcvQue.toNat < kcp.rcvWnd.toNat := hroom
  intro hzero
  have hnat := congrArg UInt32.toNat hzero
  rw [UInt16.toNat_toUInt32, UInt32.toNat_toUInt16, ikcpWndUnused,
    if_pos (show kcp.nrcvQue < kcp.rcvWnd from hroom), UInt32.toNat_sub_of_le _ _ hroom'.le, Nat.mod_eq_of_lt (by omega)] at hnat
  have hz : (0 : UInt32).toNat = 0 := rfl
  omega

section Small
variable (hshort : ∀ i, pieces (c i).mss.toNat (said i tr) < 2 ^ 30)
  (hwnd : ∀ i, (c i).rcvWnd.toNat < 2 ^ 16)
include hshort

theorem short_of_small : ∀ i, pieces (c i).mss.toNat (said i tr) < 2 ^ 31 :=
  fun i => (hshort i).trans (by decide)

theorem Inv.length_lt (h : Inv conv c tr hist gs w) (i : Bool) :
    (hist i).length + (w.kcp i).sndQueue.length < 2 ^ 30 := by
  have hmss : (w.kcp i).mss = (c i).mss := congrArg Config.mss (h.config i)
  have hcount := (h.flow i).count
  rw [hmss] at hcount
  exact hcount.trans_lt (hshort i)

include hwnd

/-- A piece is sent again: it arrives, and is acknowledged. -/
theorem Inv.resend (h : Inv conv c tr hist gs w) (i : Bool) {seg : Segment}
    (hs : seg ∈ (w.kcp i).sndBuf)
    (hwin : seg.sn.toNat < (w.kcp !i).rcvNxt.toNat + (w.kcp !i).rcvWnd.toNat) :
    ∃ w', Quiet conv c tr gs w w' ∧ (w'.kcp !i).acklist ≠ [] ∧
      (w'.kcp !i).recvSide.Has seg.sn.toNat := by
  obtain ⟨updated, tsFlush, control, data, hist₁, w₁, hfl⟩ :=
    h.flushAt (short_of_small hshort) i seg.resendts
  have hdue : 0 ≤ itimediff seg.resendts seg.resendts := (serialDiff_self _).ge
  obtain ⟨seg', hseg', hcore⟩ := hfl.flushed.due seg hs (.inr hdue)
  obtain ⟨mtu, batch, hb, hd, hnet, hbatch⟩ := hfl.batch seg' (List.mem_append_right _ hseg')
  have hnum := (h.flow i).buf seg hs
  have hsn : seg'.sn = seg.sn := congrArg Core.sn hcore
  have hcmd : seg'.cmd = seg.cmd := congrArg Core.cmd hcore
  have hflow := hfl.inv.flow i
  have hback := hfl.inv.other i
  have hshort₁ := hfl.inv.length_lt hshort
  have hpack : ∀ s ∈ batch, Packet (w₁.kcp !i).conv (hist₁ i) (w₁.kcp i).recvSide.Has s := fun s hs =>
    (hfl.inv.conv_eq !i).symm ▸ (hbatch s hs).2
  have hown := inputAll_owes {} hflow.recvSide
    (by have := hwnd !i; have := hshort₁ i; rw [hfl.inv.rcvWnd_eq]; omega)
    (fun s hs => by
      have := (List.getElem?_eq_some_iff.1 (hback.buf s hs).piece).1
      have := hshort₁ !i
      omega)
    hpack hb (hcmd.trans hnum.cmd) (by rw [hfl.other, hsn]; exact hwin)
  have hnet' : encodeAll batch ∈ w₁.net (! !i) := by rwa [Bool.not_not]
  have hq := hfl.inv.deliver (short_of_small hshort) (!i) hnet'
  have hacks := (ikcpInput_inputAll hd fun s hs => (hpack s hs).wire).1.acklist
  rw [← hacks] at hown
  refine ⟨_, hfl.quiet.trans hq, ?_, ?_⟩
  · rw [act_kcp_self]
    exact List.ne_nil_of_mem hown
  · obtain ⟨hist₂, hinv⟩ := hq.inv
    have hall := (hinv.flow i).acks (seg'.sn, seg'.ts)
    rw [act_kcp_self] at hall ⊢
    exact hsn ▸ hall hown

/-- A party that owes something tells that it has everything, and that its window is open. -/
theorem Inv.reply (h : Inv conv c tr hist gs w) (i : Bool)
    (hdue : (w.kcp i).acklist ≠ [] ∨ (w.kcp i).probe &&& IKCP_ASK_TELL ≠ 0)
    (hall : (w.kcp i).rcvNxt = (w.kcp !i).sndNxt) (hroom : Room (w.kcp i)) :
    ∃ w', Quiet conv c tr gs w w' ∧ (w'.kcp !i).sndBuf = [] ∧ (w'.kcp !i).rmtWnd ≠ 0 ∧
      (w'.kcp !i).sndNxt = (w.kcp !i).sndNxt ∧ (w'.kcp !i).sndQueue = (w.kcp !i).sndQueue ∧
      (w'.kcp i).rcvNxt = (w.kcp i).rcvNxt := by
  obtain ⟨updated, tsFlush, control, data, hist₁, w₁, hfl⟩ := h.flushAt (short_of_small hshort) i 0
  have hf := hfl.flushed
  have hne : control ≠ [] := by
    obtain hacks | htell := hdue
    · obtain ⟨p, hp⟩ := List.exists_mem_of_ne_nil _ hacks
      obtain ⟨seg, hs, -⟩ := hf.acks p hp
      exact List.ne_nil_of_mem hs
    · exact hf.tells htell
  obtain ⟨seg, hs⟩ := List.exists_mem_of_ne_nil _ hne
  obtain ⟨mtu, batch, hb, hd, hnet, hbatch⟩ := hfl.batch seg (List.mem_append_left _ hs)
  have hsame : ∀ s ∈ batch, s.una = (w.kcp i).rcvNxt ∧ s.wnd = ikcpWndUnused (w.kcp i) := by
    intro s hs
    obtain hs | hs := List.mem_append.1 (hbatch s hs).1
    · exact ⟨(hf.controls s hs).una, (hf.controls s hs).wnd⟩
    · exact (hf.datas s hs).2
  have hpack : ∀ s ∈ batch, Packet (w₁.kcp !i).conv (hist₁ i) (w₁.kcp i).recvSide.Has s := fun s hs =>
    (hfl.inv.conv_eq !i).symm ▸ (hbatch s hs).2
  have hback := hfl.inv.other i
  have hshort₁ := hfl.inv.length_lt hshort !i
  -- all of `snd_buf` has smaller numbers
  have hlt : ∀ s ∈ (w₁.kcp !i).sndBuf, 0 < itimediff (w.kcp i).rcvNxt s.sn := by
    intro s hs
    have hk := (List.getElem?_eq_some_iff.1 (hback.buf s hs).piece).1
    have hnxt := hback.sndNxt
    rw [hall, ← hfl.other]
    exact (serialDiff_pos (near_of_lt (by omega) (by omega))).2 (by omega)
  obtain ⟨hempty, hrmt⟩ := inputAll_acked (w₁.kcp !i) {} (List.ne_nil_of_mem hb) hsame hlt
  obtain ⟨hpeer, hkeep⟩ := ikcpInput_inputAll hd fun s hs => (hpack s hs).wire
  have hnet' : encodeAll batch ∈ w₁.net (! !i) := by rwa [Bool.not_not]
  have hq := hfl.inv.deliver (short_of_small hshort) (!i) hnet'
  have hheed := (hfl.inv.heeded (short_of_small hshort) (!i) hnet').2.sendSide
  refine ⟨_, hfl.quiet.trans hq, ?_, ?_, ?_, ?_, ?_⟩
  · rw [act_kcp_self]
    exact hkeep hempty
  · rw [act_kcp_self, hpeer.rmtWnd, hrmt]
    exact wndUnused_ne_zero hroom (by rw [h.rcvWnd_eq]; exact hwnd i)
  · rw [act_kcp_self, ← hfl.other]
    exact hheed.sndNxt
  · rw [act_kcp_self, ← hfl.other]
    exact hheed.sndQueue
  · have hother := act_kcp_other w₁ (!i) (ikcpInput (w₁.kcp !i) (encodeAll batch)).2 []
    rw [Bool.not_not] at hother
    rw [hother]
    exact congrArg RecvSide.rcvNxt hf.recvSide

end Small

/-! ## Numbers for the pieces that wait -/

/-- An open window has room for a segment. -/
theorem flushCwnd_pos {kcp : Ikcpcb} (hsnd : 0 < kcp.sndWnd.toNat) (hlt : kcp.sndWnd.toNat < 2 ^ 31)
    (hrmt : kcp.rmtWnd ≠ 0) (hcwnd : kcp.nocwnd = 0 → 1 ≤ kcp.cwnd) :
    0 < (flushCwnd kcp).toNat ∧ (flushCwnd kcp).toNat < 2 ^ 31 := by
  have hrmt' : 0 < kcp.rmtWnd.toNat := by
    refine Nat.pos_of_ne_zero fun h0 => hrmt (UInt32.toNat_inj.1 h0)
  have hmin : 0 < (imin kcp.sndWnd kcp.rmtWnd).toNat ∧ (imin kcp.sndWnd kcp.rmtWnd).toNat < 2 ^ 31 := by
    unfold imin
    split_ifs with hle
    · exact ⟨hsnd, hlt⟩
    · rw [UInt32.le_iff_toNat_le] at hle
      exact ⟨hrmt', by omega⟩
  unfold flushCwnd
  dsimp only
  split_ifs with hno
  · have hone : 1 ≤ kcp.cwnd.toNat := UInt32.le_iff_toNat_le.1 (hcwnd hno)
    unfold imin at hmin ⊢
    split_ifs at hmin ⊢ with h₁ h₂ h₂ <;> rw [UInt32.le_iff_toNat_le] at * <;> omega
  · exact hmin

/-- With nothing on its way and a window that is open, a flush gives a number to a piece. -/
theorem FlushAt.moves {hist₁ : Bool → List (Piece UInt8)} {w₁ : Link} {i : Bool}
    {current updated tsFlush : UInt32} {control data : List Segment}
    (hfl : FlushAt conv c tr hist₁ gs w i (tick (w.kcp i) current updated tsFlush) control data w₁)
    (h : Inv conv c tr hist gs w) (hbuf : (w.kcp i).sndBuf = []) (hque : (w.kcp i).sndQueue ≠ [])
    (hcwnd : (w.kcp i).rmtWnd ≠ 0 ∧ ((w.kcp i).nocwnd = 0 → 1 ≤ (w.kcp i).cwnd)) : ¬ Stays w w₁ := by
  intro hs
  have hsndWnd : (w.kcp i).sndWnd = (c i).sndWnd := congrArg Config.sndWnd (h.config i)
  obtain ⟨hpos, hlt⟩ := flushCwnd_pos (hsndWnd ▸ (h.ok i).sndWnd_pos) (hsndWnd ▸ (h.ok i).sndWnd_lt)
    hcwnd.1 hcwnd.2
  have huna : (w.kcp i).sndUna = (w.kcp i).sndNxt := by
    have := (h.flow i).una
    unfold Ikcpcb.UnaOk at this
    rw [this, hbuf]
    rfl
  have hne : (w₁.kcp i).sndQueue ≠ [] := by
    have hlen := (hs.queues h hfl.inv i).1
    have := List.length_pos_iff.2 hque
    exact List.length_pos_iff.1 (by omega)
  have hwindow : 0 ≤ itimediff (w₁.kcp i).sndNxt ((w.kcp i).sndUna + flushCwnd (w.kcp i)) :=
    hfl.flushed.window hne
  rw [huna, (hs i).1] at hwindow
  exact absurd (serialDiff_add_neg (w.kcp i).sndNxt hpos hlt) (Int.not_lt.2 hwindow)

section Small
variable (hshort : ∀ i, pieces (c i).mss.toNat (said i tr) < 2 ^ 30)
include hshort

/-- A second flush does, when the first one had to open the congestion window. -/
theorem Inv.opens (h : Inv conv c tr hist gs w) (i : Bool) (hbuf : (w.kcp i).sndBuf = [])
    (hque : (w.kcp i).sndQueue ≠ []) (hrmt : (w.kcp i).rmtWnd ≠ 0) :
    ∃ w', Quiet conv c tr gs w w' ∧ ¬ Stays w w' := by
  obtain ⟨updated, tsFlush, control, data, hist₁, w₁, hfl⟩ := h.flushAt (short_of_small hshort) i 0
  by_cases hs : Stays w w₁
  · have hf := hfl.flushed
    have hbuf₁ : (w₁.kcp i).sndBuf = [] := by
      obtain ⟨n, hn, -, hnxt, -, -, hcore⟩ := hf.moved
      have hcount := (h.length_lt hshort i)
      have hn' : n ≤ (w.kcp i).sndQueue.length := hn
      have hnxt' : (w.kcp i).sndNxt = (w.kcp i).sndNxt + UInt32.ofNat n := (hs i).1.symm.trans hnxt
      have hzero : n = 0 := by
        have h0 : UInt32.ofNat n = 0 := by grind
        have := congrArg UInt32.toNat h0
        rwa [UInt32.toNat_ofNat_of_lt' (by show n < 2 ^ 32; omega)] at this
      subst hzero
      have hcore' : (w₁.kcp i).sndBuf.map Segment.core = ((w.kcp i).sndBuf ++ []).map Segment.core :=
        hcore
      rw [hbuf] at hcore'
      exact List.map_eq_nil_iff.1 hcore'
    have hque₁ : (w₁.kcp i).sndQueue ≠ [] := by
      have hlen := (hs.queues h hfl.inv i).1
      have := List.length_pos_iff.2 hque
      exact List.length_pos_iff.1 (by omega)
    have hrmt₁ : (w₁.kcp i).rmtWnd ≠ 0 := by
      rw [show (w₁.kcp i).rmtWnd = (w.kcp i).rmtWnd from hf.rmtWnd]
      exact hrmt
    obtain ⟨updated, tsFlush, control, data, hist₂, w₂, hfl₂⟩ :=
      hfl.inv.flushAt (short_of_small hshort) i 0
    refine ⟨w₂, hfl.quiet.trans hfl₂.quiet, fun hs₂ => ?_⟩
    exact hfl₂.moves hfl.inv hbuf₁ hque₁ ⟨hrmt₁, fun _ => hf.cwnd⟩ (hs.of_left hs₂)
  · exact ⟨w₁, hfl.quiet, hs⟩

theorem Inv.ask (h : Inv conv c tr hist gs w) (i : Bool) (hrmt : (w.kcp i).rmtWnd = 0) :
    ∃ w', Quiet conv c tr gs w w' ∧ (w'.kcp !i).probe &&& IKCP_ASK_TELL ≠ 0 := by
  -- with the probe timer running, a flush at its time asks
  have hasks : ∀ {hist : Bool → List (Piece UInt8)} {w : Link}, Inv conv c tr hist gs w →
      (w.kcp i).rmtWnd = 0 → (w.kcp i).probeWait ≠ 0 →
      ∃ w', Quiet conv c tr gs w w' ∧ (w'.kcp !i).probe &&& IKCP_ASK_TELL ≠ 0 := by
    intro hist w h hrmt hwait
    obtain ⟨updated, tsFlush, control, data, hist₁, w₁, hfl⟩ :=
      h.flushAt (short_of_small hshort) i (w.kcp i).tsProbe
    have hdue : 0 ≤ itimediff (w.kcp i).tsProbe (w.kcp i).tsProbe := (serialDiff_self _).ge
    obtain ⟨seg, hs, hcmd⟩ := hfl.flushed.asks ⟨hrmt, hwait, hdue⟩
    obtain ⟨mtu, batch, hb, hd, hnet, hbatch⟩ := hfl.batch seg (List.mem_append_left _ hs)
    have hwire : ∀ s ∈ batch, Wire (w₁.kcp !i).conv s := fun s hs =>
      (hfl.inv.conv_eq !i).symm ▸ (hbatch s hs).2.wire
    have hnet' : encodeAll batch ∈ w₁.net (! !i) := by rwa [Bool.not_not]
    have hq := hfl.inv.deliver (short_of_small hshort) (!i) hnet'
    refine ⟨_, hfl.quiet.trans hq, ?_⟩
    rw [act_kcp_self, (ikcpInput_inputAll hd hwire).1.probe]
    exact inputAll_tell _ _ hb hcmd
  by_cases hwait : (w.kcp i).probeWait = 0
  · obtain ⟨updated, tsFlush, control, data, hist₁, w₁, hfl⟩ := h.flushAt (short_of_small hshort) i 0
    have hinit : (w₁.kcp i).probeWait = IKCP_PROBE_INIT := hfl.flushed.waits hrmt hwait
    obtain ⟨w', hq, hprobe⟩ := hasks hfl.inv (hfl.flushed.rmtWnd.trans hrmt) (by rw [hinit]; decide)
    exact ⟨w', hfl.quiet.trans hq, hprobe⟩
  · exact hasks h hrmt hwait

variable (hwnd : ∀ i, (c i).rcvWnd.toNat < 2 ^ 16)
include hwnd

/-- When all that has a number has arrived, what waits for one gets it, or something else moves. -/
theorem Inv.unblock (h : Inv conv c tr hist gs w) (i : Bool)
    (hall : (w.kcp !i).rcvNxt = (w.kcp i).sndNxt) (hroom : Room (w.kcp !i))
    (hque : (w.kcp i).sndQueue ≠ []) : ∃ w', Quiet conv c tr gs w w' ∧ ¬ Stays w w' := by
  -- once the receiver owes something, it tells that it has everything
  have hreply : ∀ {w₁ : Link}, Quiet conv c tr gs w w₁ →
      ((w₁.kcp !i).acklist ≠ [] ∨ (w₁.kcp !i).probe &&& IKCP_ASK_TELL ≠ 0) →
      ∃ w', Quiet conv c tr gs w w' ∧ ¬ Stays w w' := by
    intro w₁ hq₁ hdue
    by_cases hs₁ : Stays w w₁
    · obtain ⟨hist₁, h₁⟩ := hq₁.inv
      obtain ⟨w₂, hq₂, hbuf, hrmt, hnxt, hsame, -⟩ := h₁.reply hshort hwnd (!i) hdue
        (by rw [Bool.not_not, (hs₁ !i).2, (hs₁ i).1, hall]) (hs₁.room h h₁ i hroom)
      rw [Bool.not_not] at hbuf hrmt hnxt hsame
      have hque₂ : (w₂.kcp i).sndQueue ≠ [] := by
        have hlen := (hs₁.queues h h₁ i).1
        have := List.length_pos_iff.2 hque
        rw [hsame]
        exact List.length_pos_iff.1 (by omega)
      obtain ⟨hist₂, h₂⟩ := hq₂.inv
      obtain ⟨w₃, hq₃, hmoves⟩ := h₂.opens hshort i hbuf hque₂ hrmt
      exact ⟨w₃, (hq₁.trans hq₂).trans hq₃, fun hs => hmoves ((hq₁.trans hq₂).stays_right hq₃ hs)⟩
    · exact ⟨w₁, hq₁, hs₁⟩
  by_cases hbuf : (w.kcp i).sndBuf = []
  · by_cases hrmt : (w.kcp i).rmtWnd = 0
    · obtain ⟨w₁, hq, hprobe⟩ := h.ask hshort i hrmt
      exact hreply hq (.inr hprobe)
    · exact h.opens hshort i hbuf hque hrmt
  · obtain ⟨seg, hseg⟩ := List.exists_mem_of_ne_nil _ hbuf
    have hlt := (List.getElem?_eq_some_iff.1 ((h.flow i).buf seg hseg).piece).1
    have hpos := (h.ok !i).rcvWnd_ge
    have hwin : seg.sn.toNat < (w.kcp !i).rcvNxt.toNat + (w.kcp !i).rcvWnd.toNat := by
      rw [hall, (h.flow i).sndNxt, h.rcvWnd_eq]
      omega
    obtain ⟨w₁, hq, hacks, -⟩ := h.resend hshort hwnd i hseg hwin
    exact hreply hq (.inl hacks)

/-- A piece that has a number and room at the receiver arrives. -/
theorem Inv.arrive (h : Inv conv c tr hist gs w) (i : Bool)
    (hlt : (w.kcp !i).rcvNxt.toNat < (w.kcp i).sndNxt.toNat) (hroom : Room (w.kcp !i)) :
    ∃ w', Quiet conv c tr gs w w' ∧ ¬ Stays w w' := by
  have hflow := h.flow i
  have hnum : (w.kcp !i).rcvNxt.toNat < (hist i).length := (h.flow i).sndNxt ▸ hlt
  obtain ⟨seg, hseg, hsn⟩ := (hflow.kept _ hnum).resolve_left
    (not_has_rcvNxt hflow.settled hflow.recvSide hroom)
  have hpos := (h.ok !i).rcvWnd_ge
  obtain ⟨w₁, hq, -, hhas⟩ := h.resend hshort hwnd i hseg (by rw [hsn, h.rcvWnd_eq]; omega)
  refine ⟨w₁, hq, fun hs => ?_⟩
  obtain ⟨hist₁, h₁⟩ := hq.inv
  have hflow₁ := h₁.flow i
  refine not_has_rcvNxt hflow₁.settled hflow₁.recvSide (hs.room h h₁ i hroom) ?_
  rw [(hs !i).2, ← hsn]
  exact hhas

end Small

/-! ## What is left -/

/-- The numbers not given out, the pieces not arrived and the messages not heard, from party `i` on. -/
def remaining (gs : Bool → List (List (Piece UInt8))) (tr : List Event) (w : Link) (i : Bool) : Nat :=
  ((gs i).flatten.length - (w.kcp i).sndNxt.toNat) +
    ((gs i).flatten.length - (w.kcp !i).rcvNxt.toNat) + ((gs i).length - (heard (!i) tr).length)

def remains (gs : Bool → List (List (Piece UInt8))) (tr : List Event) (w : Link) : Nat :=
  remaining gs tr w false + remaining gs tr w true

theorem Inv.rcvNxt_le (h : Inv conv c tr hist gs w) (i : Bool) :
    (w.kcp !i).rcvNxt.toNat ≤ (w.kcp i).sndNxt.toNat := by
  rw [(h.flow i).sndNxt]
  exact (h.flow i).recvSide.rcvNxt_le

theorem remaining_le {i : Bool} (hsnd : (w.kcp i).sndNxt.toNat ≤ (w'.kcp i).sndNxt.toNat)
    (hrcv : (w.kcp !i).rcvNxt.toNat ≤ (w'.kcp !i).rcvNxt.toNat)
    (hheard : (heard (!i) tr).length ≤ (heard (!i) tr').length) :
    remaining gs tr' w' i ≤ remaining gs tr w i :=
  Nat.add_le_add (Nat.add_le_add (Nat.sub_le_sub_left hsnd _) (Nat.sub_le_sub_left hrcv _))
    (Nat.sub_le_sub_left hheard _)

/-- As much is left on one side only if nothing has moved there. -/
theorem Quiet.eq_of_remaining (hq : Quiet conv c tr gs w w') (i : Bool)
    (hle : remaining gs tr w i ≤ remaining gs tr w' i) :
    (w'.kcp i).sndNxt = (w.kcp i).sndNxt ∧ (w'.kcp !i).rcvNxt = (w.kcp !i).rcvNxt := by
  obtain ⟨hist', h'⟩ := hq.inv
  have hlen := h'.sndQueue_length i
  have hnxt := h'.rcvNxt_le i
  have hs := hq.sndNxt_le i
  have hr := hq.rcvNxt_le !i
  unfold remaining at hle
  exact ⟨UInt32.toNat_inj.1 (by omega), UInt32.toNat_inj.1 (by omega)⟩

/-- Less is left when something has moved. -/
theorem Quiet.remains_lt (hq : Quiet conv c tr gs w w') (hmoves : ¬ Stays w w') :
    remains gs tr w' < remains gs tr w := by
  by_contra hnot
  have hle (i : Bool) : remaining gs tr w' i ≤ remaining gs tr w i :=
    remaining_le (hq.sndNxt_le i) (hq.rcvNxt_le !i) le_rfl
  have hf := hle false
  have ht := hle true
  unfold remains at hnot
  obtain ⟨hsf, hrt⟩ := hq.eq_of_remaining false (by omega)
  obtain ⟨hst, hrf⟩ := hq.eq_of_remaining true (by omega)
  refine hmoves fun i => ?_
  cases i with
  | false => exact ⟨hsf, hrf⟩
  | true => exact ⟨hst, hrt⟩

/-- Less is left when a message was heard. -/
theorem remains_lt_of_heard (i : Bool) {data : List UInt8}
    (hsnd : ∀ j, (w.kcp j).sndNxt.toNat ≤ (w'.kcp j).sndNxt.toNat)
    (hrcv : ∀ j, (w.kcp j).rcvNxt.toNat ≤ (w'.kcp j).rcvNxt.toNat)
    (hlt : (heard (!i) tr).length < (gs i).length) :
    remains gs (tr ++ [.heard (!i) data]) w' < remains gs tr w := by
  have hself : (heard (!i) (tr ++ [.heard (!i) data])).length = (heard (!i) tr).length + 1 := by
    simp [heard]
  have hother : (heard i (tr ++ [.heard (!i) data])).length = (heard i tr).length := by
    simp [heard]
  have hi : remaining gs (tr ++ [.heard (!i) data]) w' i < remaining gs tr w i := by
    have hs := Nat.sub_le_sub_left (hsnd i) (gs i).flatten.length
    have hr := Nat.sub_le_sub_left (hrcv !i) (gs i).flatten.length
    unfold remaining
    omega
  have ho : remaining gs (tr ++ [.heard (!i) data]) w' (!i) ≤ remaining gs tr w !i :=
    remaining_le (hsnd !i) (hrcv _) (by rw [Bool.not_not, hother])
  unfold remains
  cases i with
  | false => exact Nat.add_lt_add_of_lt_of_le hi ho
  | true => exact Nat.add_lt_add_of_le_of_lt ho hi

/-- A message whose pieces are all in the queue is heard. -/
theorem Inv.hear (h : Inv conv c tr hist gs w)
    (hshort : ∀ i, pieces (c i).mss.toNat (said i tr) < 2 ^ 31) (i : Bool) {g : List (Piece UInt8)}
    {todo : List (List (Piece UInt8))} (hg : (gs i).drop (heard (!i) tr).length = g :: todo)
    (hne : (w.kcp !i).rcvQueue ≠ []) (hle : g.length ≤ (w.kcp !i).rcvQueue.length) :
    ∃ ls w' hist', Step w ls w' ∧ (∀ j, said j ls = []) ∧ Inv conv c (tr ++ ls) hist' gs w' ∧
      remains gs (tr ++ ls) w' < remains gs tr w := by
  have hflow := h.flow i
  have hsub : ∀ g ∈ (gs i).drop (heard (!i) tr).length, g ∈ gs i := fun g hg =>
    List.drop_subset _ _ hg
  obtain ⟨hadv, -, hcases⟩ := ikcpRecv_spec (Piece.join g).length hflow.recvSide
    (hflow.short (h.short hshort i)) (fun g hg => hflow.cut.whole g (hsub g hg))
    (fun g hg => (hflow.cut.small g (hsub g hg)).trans (by decide)) hflow.queue_isPrefix
  obtain ⟨g', todo', heq, hret, hdata, -⟩ | ⟨-, -, hnone⟩ := hcases
  · have hls : [Event.heard (!i) (ikcpRecv (w.kcp !i) (Piece.join g).length).2.1] =
        if 0 ≤ (ikcpRecv (w.kcp !i) (Piece.join g).length).1 ∧ 0 ≤ ((Piece.join g).length : Int) then
          [.heard (!i) (ikcpRecv (w.kcp !i) (Piece.join g).length).2.1] else [] := by
      rw [if_pos ⟨by rw [hret]; exact Int.natCast_nonneg _, Int.natCast_nonneg _⟩]
    obtain ⟨hist', hinv⟩ := h.recv hshort (!i) _ hls
    have hstep := Step.recv (w := w) (!i) (Piece.join g).length
    rw [← hls] at hstep
    have hlt : (heard (!i) tr).length < (gs i).length := by
      have hlen := congrArg List.length hg
      rw [List.length_drop, List.length_cons] at hlen
      omega
    have hsnd : (ikcpRecv (w.kcp !i) (Piece.join g).length).2.2.sndNxt = (w.kcp !i).sndNxt :=
      congrArg SendSide.sndNxt hadv.sendSide
    refine ⟨_, _, hist', hstep, fun j => rfl, hinv, ?_⟩
    exact remains_lt_of_heard i (le_act Ikcpcb.sndNxt (!i) _ (by rw [hsnd]))
      (le_act Ikcpcb.rcvNxt (!i) _ hadv.rcvNxt_le) hlt
  · obtain hnil | hlt | hlt := hnone g todo hg
    · exact absurd hnil hne
    · omega
    · rw [Int.natAbs_natCast] at hlt
      exact absurd hlt (Nat.lt_irrefl _)

section Small
variable (hshort : ∀ i, pieces (c i).mss.toNat (said i tr) < 2 ^ 30)
  (hwnd : ∀ i, (c i).rcvWnd.toNat < 2 ^ 16)
include hshort hwnd

/-- **Nothing blocks** : as long as a message was not heard, some calls bring it nearer. -/
theorem Inv.progress (h : Inv conv c tr hist gs w) (i : Bool)
    (hmore : (heard (!i) tr).length < (gs i).length) :
    ∃ ls w' hist', Steps Step w ls w' ∧ (∀ j, said j ls = []) ∧ Inv conv c (tr ++ ls) hist' gs w' ∧
      remains gs (tr ++ ls) w' < remains gs tr w := by
  obtain ⟨g, todo, hg⟩ : ∃ g todo, (gs i).drop (heard (!i) tr).length = g :: todo :=
    List.exists_cons_of_ne_nil fun hnil => Nat.not_le.2 hmore (List.drop_eq_nil_iff.1 hnil)
  have hmem : g ∈ gs i := List.drop_subset _ _ (hg ▸ List.mem_cons_self)
  have hpos : 0 < g.length := List.length_pos_iff.2 ((h.flow i).cut.whole g hmem).ne_nil
  by_cases hle : g.length ≤ (w.kcp !i).rcvQueue.length
  · have hne : (w.kcp !i).rcvQueue ≠ [] := List.length_pos_iff.1 (hpos.trans_le hle)
    obtain ⟨ls, w', hist', hs, hsaid, hinv, hlt⟩ := h.hear (short_of_small hshort) i hg hne hle
    exact ⟨ls, w', hist', .single hs, hsaid, hinv, hlt⟩
  have hquiet : ∃ w', Quiet conv c tr gs w w' ∧ ¬ Stays w w' := by
    have hroom : Room (w.kcp !i) := by
      have hsmall := (h.flow i).cut.small g hmem
      have hwide := (h.ok !i).rcvWnd_ge
      exact (h.room_iff i).2 (by omega)
    by_cases hlt : (w.kcp !i).rcvNxt.toNat < (w.kcp i).sndNxt.toNat
    · exact h.arrive hshort hwnd i hlt hroom
    · have heq : (w.kcp !i).rcvNxt.toNat = (w.kcp i).sndNxt.toNat := by
        have := h.rcvNxt_le i
        omega
      refine h.unblock hshort hwnd i (UInt32.toNat_inj.1 heq) hroom fun hnil => hle ?_
      -- all pieces have arrived
      have hq := h.sndQueue_length i
      have hr := h.rcvQueue_length i
      have hsplit := congrArg List.length
        (congrArg List.flatten (List.take_append_drop (heard (!i) tr).length (gs i)))
      rw [List.flatten_append, List.length_append, hg, List.flatten_cons, List.length_append] at hsplit
      rw [hnil, List.length_nil] at hq
      omega
  obtain ⟨w', hq, hmoves⟩ := hquiet
  obtain ⟨hist', hinv⟩ := hq.inv
  refine ⟨[], w', hist', hq.steps, fun _ => rfl, ?_, ?_⟩
  · rwa [List.append_nil]
  · rw [List.append_nil]
    exact hq.remains_lt hmoves

end Small

theorem Inv.exists_heard (hwnd : ∀ i, (c i).rcvWnd.toNat < 2 ^ 16) : ∀ (n : Nat) {tr : List Event}
    {hist : Bool → List (Piece UInt8)} {w : Link}, remains gs tr w < n → Inv conv c tr hist gs w →
    (∀ i, pieces (c i).mss.toNat (said i tr) < 2 ^ 30) →
    ∃ ls w' hist', Steps Step w ls w' ∧ (∀ i, said i ls = []) ∧ Inv conv c (tr ++ ls) hist' gs w' ∧
      ∀ i, (heard (!i) (tr ++ ls)).length = (gs i).length := by
  intro n
  induction n with
  | zero => exact fun hlt => absurd hlt (Nat.not_lt_zero _)
  | succ n ih =>
    intro tr hist w hlt h hshort
    by_cases hall : ∀ i, (gs i).length ≤ (heard (!i) tr).length
    · refine ⟨[], w, hist, .refl, fun _ => rfl, ?_, fun i => ?_⟩
      · rwa [List.append_nil]
      · rw [List.append_nil]
        exact Nat.le_antisymm (h.flow i).heard_le (hall i)
    obtain ⟨i, hi⟩ := not_forall.1 hall
    obtain ⟨ls, w₁, hist₁, hs, hsaid, h₁, hless⟩ := h.progress hshort hwnd i (Nat.not_le.1 hi)
    have hsame (j : Bool) : said j (tr ++ ls) = said j tr := by
      rw [said_append, hsaid, List.append_nil]
    obtain ⟨ls', w', hist', hs', hsaid', h', hheard⟩ :=
      ih (by omega) h₁ fun j => by rw [hsame]; exact hshort j
    rw [List.append_assoc] at h' hheard
    refine ⟨ls ++ ls', w', hist', hs.trans hs', fun j => ?_, h', hheard⟩
    rw [said_append, hsaid, hsaid', List.append_nil]

/-- **Everything said can be heard** : whatever the network has done so far, from every state reached some
more calls, with nothing said, let both upper levels hear all that the other one said. -/
theorem delivers (hw : Start conv w) (hr : Steps Step w tr w')
    (hshort : ∀ i, pieces (w.kcp i).mss.toNat (said i tr) < 2 ^ 30)
    (hwnd : ∀ i, (w.kcp i).rcvWnd.toNat < 2 ^ 16) :
    ∃ tr' w'', Steps Step w' tr' w'' ∧ ∀ i, said i tr' = [] ∧
      ((w.kcp i).stream = 0 → heard (!i) (tr ++ tr') = said i tr) ∧
      (heard (!i) (tr ++ tr')).flatten = (said i tr).flatten := by
  obtain ⟨hist, gs, hinv⟩ := hw.run hr fun i => (hshort i).trans (by decide)
  obtain ⟨tr', w'', hist', hs, hsaid, h, hheard⟩ :=
    Inv.exists_heard hwnd _ (Nat.lt_succ_self _) hinv hshort
  refine ⟨tr', w'', hs, fun i => ⟨hsaid i, ?_⟩⟩
  have hsame : said i (tr ++ tr') = said i tr := by
    rw [said_append, hsaid, List.append_nil]
  have hflow := h.flow i
  have hstream : (w''.kcp i).stream = (w.kcp i).stream := congrArg Config.stream (h.config i)
  have hjoined : heard (!i) (tr ++ tr') = (gs i).map Piece.join := by
    rw [hflow.joined, hheard, List.take_length]
  rw [hjoined, ← hsame]
  exact ⟨fun h0 => hflow.cut.message (hstream.trans h0), hflow.cut.bytes⟩

/-- A message that was said and not yet sent. -/
theorem delivers_one : ∃ (w w' w'' : Link) (tr' : List Event), Start 7 w ∧
    Steps Step w [.said false [1, 2, 3]] w' ∧ Steps Step w' tr' w'' ∧
    heard true ([.said false [1, 2, 3]] ++ tr') = [[1, 2, 3]] := by
  let w : Link := ⟨fun _ => ikcpCreate 7, fun _ => []⟩
  have hw : Start 7 w := ⟨fun _ => .create, fun _ => rfl⟩
  have hsend : (ikcpSend (ikcpCreate 7) [1, 2, 3] 3).1 = 3 := by decide +kernel
  have hstep : Step w [.said false [1, 2, 3]] (w.act false (ikcpSend (ikcpCreate 7) [1, 2, 3] 3).2 []) := by
    have h := @Step.send w false [1, 2, 3] 3 (by decide)
    rwa [show (ikcpSend (w.kcp false) [1, 2, 3] 3).1 = 3 from hsend] at h
  obtain ⟨tr', w'', hs, hheard⟩ := delivers hw (.single hstep)
    (fun i => by cases i <;> decide) (fun i => by cases i <;> decide)
  exact ⟨w, _, w'', tr', hw, .single hstep, hs, (hheard false).2.1 rfl⟩

end Link

end FwkMlib.Kcp
