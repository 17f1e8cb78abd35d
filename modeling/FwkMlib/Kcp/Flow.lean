import FwkMlib.Kcp.Input
import FwkMlib.Kcp.Send

/-!
# One direction of a connection

`Flow s r said heard` relates the control block of a sender with that of its receiver: `said` are the
messages that the sender's upper level gave to `ikcp_send`, `heard` those that the receiver's upper level
took from `ikcp_recv`.

* `Flow.prefix`, `Flow.bytes_isPrefix` : what was heard is the beginning of what was said;
* `Flow.send`, `Flow.recv`, `Flow.flush`, `Flow.receiver`, `Flow.shrunk` : one lemma for each operation.
-/

namespace FwkMlib.Kcp
open FwkMlib.Lib

/-- What of a configuration the operations rely on. -/
structure Config.Ok (conv : UInt32) (c : Config) : Prop where
  conv : c.conv = conv
  mss_pos : 0 < c.mss.toNat
  mtu : c.mtu.toNat = c.mss.toNat + 24
  mtu_le : c.mtu ≤ c.bufferSize
  mtu_lt : c.mtu.toNat < 2 ^ 31
  sndWnd_pos : 0 < c.sndWnd.toNat
  sndWnd_lt : c.sndWnd.toNat < 2 ^ 31
  rcvWnd_lt : c.rcvWnd.toNat < 2 ^ 31
  rcvWnd_ge : 128 ≤ c.rcvWnd.toNat

/-- A segment of `snd_buf` carries the piece of its number. -/
structure Numbered (kcp : Ikcpcb) (hist : List (Piece UInt8)) (seg : Segment) : Prop where
  conv : seg.conv = kcp.conv
  cmd : seg.cmd = IKCP_CMD_PUSH.toUInt32
  piece : hist[seg.sn.toNat]? = some seg.piece
  length_le : seg.data.length ≤ kcp.mss.toNat

theorem Numbered.of_core {kcp kcp' : Ikcpcb} {hist : List (Piece UInt8)} {seg seg' : Segment}
    (h : Numbered kcp hist seg) (hc : kcp'.config = kcp.config) (hcore : seg.core = seg'.core)
    (new : List (Piece UInt8)) : Numbered kcp' (hist ++ new) seg' := by
  have hmss : kcp'.mss = kcp.mss := congrArg Config.mss hc
  have hconv : kcp'.conv = kcp.conv := congrArg Config.conv hc
  obtain ⟨c₁, c₂, c₃, c₄, c₅⟩ := Core.mk.inj hcore
  refine ⟨c₁ ▸ hconv ▸ h.conv, c₂ ▸ h.cmd, ?_, c₅ ▸ hmss ▸ h.length_le⟩
  rw [Segment.piece, ← c₃, ← c₄, ← c₅, List.getElem?_append_left (List.getElem?_eq_some_iff.1 h.piece).1]
  exact h.piece

def pieces (mss : Nat) (said : List (List UInt8)) : Nat := (said.map (pieceCount mss)).sum

/-- The pieces `hist` have numbers, and `gs` are the messages as they are cut. -/
structure Flow (s r : Ikcpcb) (said heard : List (List UInt8)) (hist : List (Piece UInt8))
    (gs : List (List (Piece UInt8))) : Prop where
  sndNxt : s.sndNxt.toNat = hist.length
  una : s.UnaOk
  cut : Cut s.stream said (hist ++ s.sndQueue.map Segment.piece) gs
  count : hist.length + s.sndQueue.length ≤ pieces s.mss.toNat said
  fit : ∀ seg ∈ s.sndQueue, seg.data.length ≤ s.mss.toNat
  buf : ∀ seg ∈ s.sndBuf, Numbered s hist seg
  /-- Nothing is lost. -/
  kept : ∀ k < hist.length, r.recvSide.Has k ∨ ∃ seg ∈ s.sndBuf, seg.sn.toNat = k
  nsndQue : s.nsndQue = UInt32.ofNat s.sndQueue.length
  nsndBuf : s.nsndBuf = UInt32.ofNat s.sndBuf.length
  joined : heard = (gs.take heard.length).map Piece.join
  recvSide : RecvOk hist (gs.take heard.length).flatten r.rcvWnd r.recvSide
  settled : Settled r
  acks : ∀ p ∈ r.acklist, r.recvSide.Has p.1.toNat

namespace Flow

variable {s s' r r' : Ikcpcb} {said heard : List (List UInt8)} {hist : List (Piece UInt8)}
  {gs : List (List (Piece UInt8))} {conv : UInt32}

theorem heard_le (h : Flow s r said heard hist gs) : heard.length ≤ gs.length := by
  have hlen := congrArg List.length h.joined
  rw [List.length_map, List.length_take] at hlen
  omega

theorem messages_isPrefix (h : Flow s r said heard hist gs) (hstream : s.stream = 0) :
    heard <+: said := by
  rw [h.joined, ← h.cut.message hstream, List.map_take]
  exact List.take_prefix _ _

theorem bytes_isPrefix (h : Flow s r said heard hist gs) : heard.flatten <+: said.flatten := by
  rw [h.joined, ← h.cut.bytes, List.map_take]
  conv_rhs => rw [← List.take_append_drop heard.length (gs.map Piece.join), List.flatten_append]
  exact List.prefix_append _ _

theorem short (h : Flow s r said heard hist gs) (hshort : pieces s.mss.toNat said < 2 ^ 31) :
    hist.length < 2 ^ 31 :=
  (Nat.le_add_right _ _).trans_lt (h.count.trans_lt hshort)

/-- Whose number of a fragment is on the wire. -/
theorem fst_lt (h : Flow s r said heard hist gs) {k : Nat} {p : Piece UInt8}
    (hp : hist[k]? = some p) : p.1 < 256 := by
  have hmem : p ∈ gs.flatten := by
    rw [h.cut.flatten]
    exact List.mem_append_left _ (List.mem_of_getElem? hp)
  obtain ⟨g, hg, hpg⟩ := List.mem_flatten.1 hmem
  have h₁ := (h.cut.whole g hg).fst_lt hpg
  have h₂ := h.cut.small g hg
  omega

/-- What the queue of the receiver begins with is what comes next. -/
theorem queue_isPrefix (h : Flow s r said heard hist gs) :
    r.rcvQueue.map Segment.piece <+: (gs.drop heard.length).flatten := by
  have hqueue : (gs.take heard.length).flatten ++ r.rcvQueue.map Segment.piece =
      hist.take r.rcvNxt.toNat := h.recvSide.queue
  have hflat : (gs.take heard.length).flatten ++ (gs.drop heard.length).flatten =
      hist ++ s.sndQueue.map Segment.piece := by
    rw [← List.flatten_append, List.take_append_drop, h.cut.flatten]
  have hpre : (gs.take heard.length).flatten ++ r.rcvQueue.map Segment.piece <+:
      (gs.take heard.length).flatten ++ (gs.drop heard.length).flatten := by
    rw [hqueue, hflat]
    have htake := List.take_prefix r.rcvNxt.toNat hist
    exact htake.trans (List.prefix_append _ _)
  exact (List.prefix_append_right_inj _).1 hpre

theorem taken_isPrefix (h : Flow s r said heard hist gs) : (gs.take heard.length).flatten <+: hist :=
  (List.prefix_append _ _).trans (h.recvSide.queue ▸ List.take_prefix _ _)

/-! ## The receiver -/

/-- The receiver has more, and acknowledges nothing else. -/
theorem receiver (h : Flow s r said heard hist gs)
    (hok : RecvOk hist (gs.take heard.length).flatten r'.rcvWnd r'.recvSide)
    (hhas : ∀ k, r.recvSide.Has k → r'.recvSide.Has k) (hset : Settled r')
    (hacks : ∀ p ∈ r'.acklist, p ∈ r.acklist ∨ r'.recvSide.Has p.1.toNat) :
    Flow s r' said heard hist gs where
  sndNxt := h.sndNxt
  una := h.una
  cut := h.cut
  count := h.count
  fit := h.fit
  buf := h.buf
  kept k hk := (h.kept k hk).imp_left (hhas k)
  nsndQue := h.nsndQue
  nsndBuf := h.nsndBuf
  joined := h.joined
  recvSide := hok
  settled := hset
  acks p hp := (hacks p hp).elim (fun hp => hhas _ (h.acks p hp)) id

/-- What the receiver does as a sender does not matter. -/
theorem receiver_same (h : Flow s r said heard hist gs) (hc : r'.config = r.config)
    (hr : r'.recvSide = r.recvSide) (ha : ∀ p ∈ r'.acklist, p ∈ r.acklist) :
    Flow s r' said heard hist gs := by
  have hwnd : r'.rcvWnd = r.rcvWnd := congrArg Config.rcvWnd hc
  refine h.receiver ?_ (fun k hk => hr ▸ hk) (h.settled.congr hc hr) fun p hp => .inl (ha p hp)
  rw [hwnd, hr]
  exact h.recvSide

theorem recv (h : Flow s r said heard hist gs) (hshort : hist.length < 2 ^ 31) (len : Int) :
    Flow s (ikcpRecv r len).2.2 said
        (if 0 ≤ (ikcpRecv r len).1 ∧ 0 ≤ len then heard ++ [(ikcpRecv r len).2.1] else heard)
        hist gs ∧
      Advanced r (ikcpRecv r len).2.2 := by
  have hsub : ∀ g ∈ gs.drop heard.length, g ∈ gs := fun g hg => List.drop_subset _ _ hg
  obtain ⟨hadv, hset, hcases⟩ := ikcpRecv_spec len h.recvSide hshort
    (fun g hg => h.cut.whole g (hsub g hg))
    (fun g hg => (h.cut.small g (hsub g hg)).trans (by decide)) h.queue_isPrefix
  refine ⟨?_, hadv⟩
  have hwnd : (ikcpRecv r len).2.2.rcvWnd = r.rcvWnd := congrArg Config.rcvWnd hadv.config
  have hacks : ∀ p ∈ (ikcpRecv r len).2.2.acklist, p ∈ r.acklist ∨
      (ikcpRecv r len).2.2.recvSide.Has p.1.toNat := fun p hp => .inl (hadv.acklist ▸ hp)
  obtain ⟨g, todo, htodo, hret, hdata, hok⟩ | ⟨hneg, hsame, -⟩ := hcases
  · have hnonneg : 0 ≤ (ikcpRecv r len).1 := hret ▸ Int.natCast_nonneg _
    by_cases hlen : 0 ≤ len
    · rw [if_pos ⟨hnonneg, hlen⟩, hdata]
      rw [if_neg (Int.not_lt.2 hlen)] at hok
      have hlt : heard.length < gs.length := by
        have := congrArg List.length htodo
        rw [List.length_drop, List.length_cons] at this
        omega
      -- the message heard is the next one
      have hg : gs[heard.length]? = some g := by
        rw [← List.head?_drop, htodo]
        rfl
      have htake : gs.take (heard.length + 1) = gs.take heard.length ++ [g] := by
        rw [List.take_add_one, hg]
        rfl
      have hlen' : (heard ++ [Piece.join g]).length = heard.length + 1 := List.length_append
      exact {
        sndNxt := h.sndNxt
        una := h.una
        cut := h.cut
        count := h.count
        fit := h.fit
        buf := h.buf
        kept := fun k hk => (h.kept k hk).imp_left (hadv.has k)
        nsndQue := h.nsndQue
        nsndBuf := h.nsndBuf
        joined := by
          rw [hlen', htake, List.map_append, ← h.joined]
          rfl
        recvSide := by
          rw [hlen', htake, List.flatten_append, List.flatten_singleton, hwnd]
          exact hok
        settled := hset h.settled
        acks := fun p hp => hadv.has _ (h.acks p (hadv.acklist ▸ hp)) }
    · rw [if_neg fun hc => hlen hc.2]
      rw [if_pos (Int.not_le.1 hlen)] at hok
      exact h.receiver (hwnd.symm ▸ hok) hadv.has (hset h.settled) hacks
  · rw [if_neg fun hc => Int.not_le.2 hneg hc.1]
    exact h.receiver (by rw [hsame]; exact h.recvSide) hadv.has (hset h.settled) hacks

/-! ## The sender -/

/-- The sender has dropped what the receiver has. -/
theorem shrunk (h : Flow s r said heard hist gs) (hc : s'.config = s.config)
    (hs : Shrunk r.recvSide.Has s.sendSide s'.sendSide) (hu : s.UnaOk → s'.UnaOk) :
    Flow s' r said heard hist gs := by
  have hmss : s'.mss = s.mss := congrArg Config.mss hc
  have hstream : s'.stream = s.stream := congrArg Config.stream hc
  have hnxt : s'.sndNxt = s.sndNxt := hs.sndNxt
  have hque : s'.sndQueue = s.sndQueue := hs.sndQueue
  have hnque : s'.nsndQue = s.nsndQue := hs.nsndQue
  exact {
    sndNxt := by rw [hnxt, h.sndNxt]
    una := hu h.una
    cut := by
      rw [hstream, hque]
      exact h.cut
    count := by
      rw [hmss, hque]
      exact h.count
    fit := by
      rw [hmss, hque]
      exact h.fit
    buf := by
      intro seg hseg
      obtain ⟨seg', hseg', hcore⟩ := hs.exists_core hseg
      have := (h.buf seg' hseg').of_core hc hcore []
      rwa [List.append_nil] at this
    kept := by
      intro k hk
      obtain hhas | ⟨seg, hseg, rfl⟩ := h.kept k hk
      · exact .inl hhas
      · refine (hs.kept seg hseg).imp id ?_
        rintro ⟨seg', hseg', hsn⟩
        exact ⟨seg', hseg', congrArg UInt32.toNat hsn⟩
    nsndQue := by rw [hnque, hque, h.nsndQue]
    nsndBuf := hs.count h.nsndBuf
    joined := h.joined
    recvSide := h.recvSide
    settled := h.settled
    acks := h.acks }

theorem send (h : Flow s r said heard hist gs) (hmss : 0 < s.mss.toNat) (buffer : List UInt8)
    {len : Int} (hlen : len ≤ buffer.length) :
    ∃ gs', Flow (ikcpSend s buffer len).2 r
        (if 0 ≤ (ikcpSend s buffer len).1 then said ++ [buffer.take (ikcpSend s buffer len).1.toNat]
        else said) heard hist gs' ∧
      Queued s (ikcpSend s buffer len).2 := by
  obtain ⟨hneg, hsame⟩ | ⟨n, hn, hret, -, hacc⟩ :=
    ikcpSend_spec buffer len hmss h.cut h.fit h.nsndQue
  · rw [if_neg (Int.not_le.2 hneg), hsame]
    exact ⟨gs, h, rfl, rfl, rfl, rfl, rfl, rfl, rfl⟩
  · rw [if_pos (hret ▸ Int.natCast_nonneg n), hret, Int.toNat_natCast]
    have htake : (buffer.take len.toNat).take n = buffer.take n := by
      rw [List.length_take] at hn
      rw [List.take_take, Nat.min_eq_left (by omega)]
    rw [htake] at hacc
    obtain ⟨hqueued, hfit, hnque, hle, gs', hsameN, hcut⟩ := hacc
    generalize (ikcpSend s buffer len).2 = s' at *
    have hmss' : s'.mss = s.mss := congrArg Config.mss hqueued.config
    have hconv : s'.conv = s.conv := congrArg Config.conv hqueued.config
    have hstream : s'.stream = s.stream := congrArg Config.stream hqueued.config
    -- the messages heard are the same ones
    have htaken : gs'.take heard.length = gs.take heard.length :=
      hsameN heard.length h.heard_le h.taken_isPrefix
    refine ⟨gs', ?_, hqueued⟩
    exact {
      sndNxt := hqueued.sndNxt ▸ h.sndNxt
      una := by
        unfold Ikcpcb.UnaOk
        rw [hqueued.sndUna, hqueued.sndBuf, hqueued.sndNxt]
        exact h.una
      cut := hstream ▸ hcut
      count := by
        have hcount := h.count
        rw [hmss', pieces, List.map_append, List.sum_append]
        rw [pieces] at hcount
        show _ ≤ _ + (pieceCount s.mss.toNat (buffer.take n) + 0)
        omega
      fit := hmss' ▸ hfit
      buf := fun seg hs => by
        have hb := h.buf seg (hqueued.sndBuf ▸ hs)
        exact ⟨hconv ▸ hb.conv, hb.cmd, hb.piece, hmss' ▸ hb.length_le⟩
      kept := fun k hk => hqueued.sndBuf ▸ h.kept k hk
      nsndQue := hnque
      nsndBuf := by rw [hqueued.nsndBuf, hqueued.sndBuf, h.nsndBuf]
      joined := by rw [htaken, ← h.joined]
      recvSide := htaken ▸ h.recvSide
      settled := h.settled
      acks := h.acks }

end Flow

/-! ## The flush -/

theorem getElem?_stampAll (kcp : Ikcpcb) (wnd sn : UInt32) (queue : List Segment) (k : Nat) :
    (stampAll kcp wnd sn queue)[k]? =
      queue[k]?.map (stampSegment { kcp with sndNxt := sn + UInt32.ofNat k } wnd) := by
  induction queue generalizing sn k with
  | nil => rfl
  | cons seg rest ih =>
    rw [stampAll]
    cases k with
    | zero => simp
    | succ k =>
      have hadd : sn + 1 + UInt32.ofNat k = sn + UInt32.ofNat (k + 1) := by
        rw [UInt32.ofNat_add]
        grind
      rw [List.getElem?_cons_succ, List.getElem?_cons_succ, ih, hadd]

@[simp] theorem length_stampAll (kcp : Ikcpcb) (wnd sn : UInt32) (queue : List Segment) :
    (stampAll kcp wnd sn queue).length = queue.length := by
  induction queue generalizing sn with
  | nil => rfl
  | cons seg rest ih => rw [stampAll, List.length_cons, ih, List.length_cons]

theorem exists_core {xs ys : List Segment} (h : xs.map Segment.core = ys.map Segment.core)
    {seg : Segment} (hs : seg ∈ xs) : ∃ seg' ∈ ys, seg'.core = seg.core := by
  have := List.mem_map_of_mem (f := Segment.core) hs
  rw [h] at this
  exact List.mem_map.1 this

/-- A flush gives the first numbers behind those of `snd_buf`. -/
theorem Flushed.unaOk {s s' : Ikcpcb} {control data : List Segment} (hf : Flushed s s' control data)
    (h : s.UnaOk) : s'.UnaOk := by
  obtain ⟨n, hn, -, hnxt, -, -, hbuf⟩ := hf.moved
  have hhead := congrArg (fun l => l.head?.map Core.sn) hbuf
  simp only [List.head?_map, Option.map_map] at hhead
  have hsn : s'.sndBuf.head?.map Segment.sn = (s.sndBuf ++
      stampAll s (ikcpWndUnused s) s.sndNxt (s.sndQueue.take n)).head?.map Segment.sn := hhead
  unfold Ikcpcb.UnaOk at h ⊢
  rw [hf.sndUna, hsn, h, hnxt]
  cases hb : s.sndBuf with
  | cons seg rest => rfl
  | nil =>
    -- the first number that is given is `snd_una`
    have hzero : s.sndNxt + UInt32.ofNat 0 = s.sndNxt := by simp
    rw [List.nil_append, @List.head?_eq_getElem? _ (stampAll _ _ _ _), getElem?_stampAll, hzero]
    cases hq : (s.sndQueue.take n)[0]? with
    | some q => rfl
    | none =>
      have hnil : n = 0 := by
        rw [List.getElem?_eq_none_iff, List.length_take] at hq
        omega
      rw [hnil, hzero]
      rfl

namespace Flow

variable {s s' r r' : Ikcpcb} {said heard : List (List UInt8)} {hist : List (Piece UInt8)}
  {gs : List (List (Piece UInt8))} {conv : UInt32} {control data : List Segment}

theorem toNat_number (h : Flow s r said heard hist gs) (hshort : pieces s.mss.toNat said < 2 ^ 31)
    {k : Nat} (hk : k ≤ s.sndQueue.length) :
    (s.sndNxt + UInt32.ofNat k).toNat = hist.length + k := by
  have hcount := h.count
  rw [UInt32.toNat_add, UInt32.toNat_ofNat_of_lt' (by show k < 2 ^ 32; omega), h.sndNxt]
  exact Nat.mod_eq_of_lt (by omega)

/-- The segments that get numbers carry the pieces that come next. -/
theorem stamped (h : Flow s r said heard hist gs) (hshort : pieces s.mss.toNat said < 2 ^ 31)
    {n : Nat} {seg : Segment}
    (hs : seg ∈ stampAll s (ikcpWndUnused s) s.sndNxt (s.sndQueue.take n)) :
    Numbered s (hist ++ (s.sndQueue.take n).map Segment.piece) seg := by
  obtain ⟨k, hk⟩ := List.mem_iff_getElem?.1 hs
  rw [getElem?_stampAll] at hk
  obtain ⟨q, hq, rfl⟩ := Option.map_eq_some_iff.1 hk
  have hlt := (List.getElem?_eq_some_iff.1 hq).1
  rw [List.length_take] at hlt
  refine ⟨rfl, rfl, ?_, h.fit q (List.take_subset _ _ (List.mem_of_getElem? hq))⟩
  show (hist ++ _)[(s.sndNxt + UInt32.ofNat k).toNat]? = _
  rw [h.toNat_number hshort (by omega), List.getElem?_append_right (Nat.le_add_right _ _),
    Nat.add_sub_cancel_left, List.getElem?_map, hq]
  rfl

theorem exists_stamped (h : Flow s r said heard hist gs) (hshort : pieces s.mss.toNat said < 2 ^ 31)
    {n k : Nat} (hn : n ≤ s.sndQueue.length) (hk : k < n) :
    ∃ seg ∈ stampAll s (ikcpWndUnused s) s.sndNxt (s.sndQueue.take n),
      seg.sn.toNat = hist.length + k := by
  have hq : (s.sndQueue.take n)[k]? = some s.sndQueue[k] := by
    rw [List.getElem?_take_of_lt hk, List.getElem?_eq_getElem]
  have hget := getElem?_stampAll s (ikcpWndUnused s) s.sndNxt (s.sndQueue.take n) k
  rw [hq] at hget
  exact ⟨_, List.mem_of_getElem? hget, h.toNat_number hshort (by omega)⟩

/-- Some of the queue gets numbers. -/
theorem flush (h : Flow s r said heard hist gs) (hshort : pieces s.mss.toNat said < 2 ^ 31)
    (hf : Flushed s s' control data) : ∃ new, Flow s' r said heard (hist ++ new) gs := by
  obtain ⟨n, hn, hque, hnxt, hnque, hnbuf, hbuf⟩ := hf.moved
  have hmss : s'.mss = s.mss := congrArg Config.mss hf.config
  have hstream : s'.stream = s.stream := congrArg Config.stream hf.config
  have hlen : (s.sndQueue.take n).length = n := by
    rw [List.length_take]
    omega
  refine ⟨(s.sndQueue.take n).map Segment.piece, ?_⟩
  exact {
    sndNxt := by rw [hnxt, h.toNat_number hshort hn, List.length_append, List.length_map, hlen]
    una := hf.unaOk h.una
    cut := by
      rw [hstream, hque, List.append_assoc, ← List.map_append, List.take_append_drop]
      exact h.cut
    count := by
      have hcount := h.count
      rw [hmss, hque, List.length_append, List.length_map, hlen, List.length_drop]
      omega
    fit := by
      rw [hmss, hque]
      exact fun seg hs => h.fit seg (List.drop_subset _ _ hs)
    buf := by
      intro seg hs
      obtain ⟨seg', hs', hcore⟩ := exists_core hbuf hs
      obtain hs' | hs' := List.mem_append.1 hs'
      · exact (h.buf seg' hs').of_core hf.config hcore _
      · have := (h.stamped hshort hs').of_core hf.config hcore []
        rwa [List.append_nil] at this
    kept := by
      intro k hk
      rw [List.length_append, List.length_map, hlen] at hk
      by_cases hold : k < hist.length
      · refine (h.kept k hold).imp id ?_
        rintro ⟨seg, hs, rfl⟩
        obtain ⟨seg', hs', hcore⟩ := exists_core hbuf.symm (List.mem_append_left _ hs)
        exact ⟨seg', hs', congrArg (fun c => c.sn.toNat) hcore⟩
      · obtain ⟨j, rfl⟩ := Nat.exists_eq_add_of_le (Nat.le_of_not_lt hold)
        obtain ⟨seg, hs, hsn⟩ := h.exists_stamped hshort hn (Nat.lt_of_add_lt_add_left hk)
        obtain ⟨seg', hs', hcore⟩ := exists_core hbuf.symm (List.mem_append_right _ hs)
        exact .inr ⟨seg', hs', (congrArg (fun c => c.sn.toNat) hcore).trans hsn⟩
    nsndQue := by rw [hnque, hque, List.length_drop, h.nsndQue, UInt32.ofNat_sub hn]
    nsndBuf := by
      have := congrArg List.length hbuf
      rw [List.length_map, List.length_map, List.length_append, length_stampAll, hlen] at this
      rw [hnbuf, this, UInt32.ofNat_add, h.nsndBuf]
    joined := h.joined
    recvSide := h.recvSide.append _
    settled := h.settled
    acks := h.acks }

/-- What a flush puts out are packets. -/
theorem packets (h : Flow s' r said heard hist gs) (hf : Flushed s s' control data)
    (hmss : s.mss.toNat < 2 ^ 31) (hnxt : s.rcvNxt.toNat < 2 ^ 31)
    (hacks : ∀ p ∈ s.acklist, s.recvSide.Has p.1.toNat) :
    ∀ seg ∈ control ++ data, Packet s.conv hist s.recvSide.Has seg := by
  intro seg hs
  obtain hs | hs := List.mem_append.1 hs
  · have hc := hf.controls seg hs
    have huna : ∀ k < seg.una.toNat, k < s.rcvNxt.toNat := fun k hk => hc.una ▸ hk
    refine ⟨hc.conv, hc.una ▸ hnxt, fun k hk => .inl (huna k hk), by rw [hc.data]; decide, .inr ?_⟩
    exact hc.cmd.imp_left fun ⟨hcmd, hp⟩ => ⟨hcmd, hacks _ hp⟩
  · obtain ⟨hmem, huna, -⟩ := hf.datas seg hs
    have hb := h.buf seg hmem
    have hmss' : s'.mss = s.mss := congrArg Config.mss hf.config
    have hconv : s'.conv = s.conv := congrArg Config.conv hf.config
    have huna' : ∀ k < seg.una.toNat, k < s.rcvNxt.toNat := fun k hk => huna ▸ hk
    refine ⟨hconv ▸ hb.conv, huna ▸ hnxt, fun k hk => .inl (huna' k hk), ?_,
      .inl ⟨hb.cmd, hb.piece, h.fst_lt hb.piece⟩⟩
    exact (hmss' ▸ hb.length_le).trans_lt hmss

end Flow

end FwkMlib.Kcp
