import FwkMlib.Kcp.Ikcp

/-!
# What a flush puts on the wire

* `Output.Holds` : the datagrams put out and the buffer hold some segments, one after the other, and no
  datagram is longer than the mtu;
* `flushSegments_spec` : the segments of `snd_buf` that a flush sends, and what it leaves of them;
* `ikcpFlush_spec` : a flush never overruns its buffer when no segment is longer than the mss, and its
  datagrams hold the acknowledgements, the probes and the data, in this order.
-/

namespace FwkMlib.Kcp
open FwkMlib.Lib

/-- Segments as they are on the wire. -/
def encodeAll (segs : List Segment) : List UInt8 :=
  segs.flatMap fun seg => ikcpEncodeSeg seg ++ seg.data

@[simp] theorem encodeAll_nil : encodeAll [] = [] := rfl

theorem encodeAll_append (segs segs' : List Segment) :
    encodeAll (segs ++ segs') = encodeAll segs ++ encodeAll segs' :=
  List.flatMap_append

theorem encodeAll_cons (seg : Segment) (segs : List Segment) :
    encodeAll (seg :: segs) = ikcpEncodeSeg seg ++ (seg.data ++ encodeAll segs) := by
  unfold encodeAll
  rw [List.flatMap_cons, List.append_assoc]

def Segment.size (seg : Segment) : Nat := 24 + seg.data.length

theorem length_le_encodeAll (segs : List Segment) : segs.length ≤ (encodeAll segs).length := by
  induction segs with
  | nil => exact Nat.le_refl 0
  | cons seg segs ih =>
    rw [encodeAll_cons, List.length_append, List.length_append, length_ikcpEncodeSeg, List.length_cons]
    omega

/-- A datagram of some segments, within the mtu. -/
structure Datagram (mtu : Nat) (segs : List Segment) : Prop where
  ne_nil : segs ≠ []
  length_le : (encodeAll segs).length ≤ mtu

/-! ## The flush buffer -/

/-- Datagrams and buffer hold `segs`. -/
structure Output.Holds (o : Output) (mtu : UInt32) (segs : List Segment) : Prop where
  exists_batches : ∃ (batches : List (List Segment)) (last : List Segment),
    segs = batches.flatten ++ last ∧ o.sent = batches.map encodeAll ∧ o.buffer = encodeAll last ∧
      ∀ batch ∈ batches, Datagram mtu.toNat batch
  length_le : o.buffer.length ≤ mtu.toNat

namespace Output

variable {o : Output} {mtu : UInt32} {segs : List Segment} {seg : Segment} {kcp : Ikcpcb}

theorem holds_empty (mtu : UInt32) : ({} : Output).Holds mtu [] where
  exists_batches := ⟨[], [], rfl, rfl, rfl, nofun⟩
  length_le := Nat.zero_le _

theorem encodeAll_eq_nil : encodeAll segs = [] ↔ segs = [] := by
  constructor
  · intro h
    have := length_le_encodeAll segs
    rw [h] at this
    exact List.eq_nil_of_length_eq_zero (Nat.le_zero.1 this)
  · rintro rfl
    rfl

theorem Holds.flush (h : o.Holds mtu segs) : o.flush.Holds mtu segs ∧ o.flush.buffer = [] := by
  obtain ⟨⟨batches, last, hsegs, hsent, hbuf, hbatch⟩, hlen⟩ := h
  unfold Output.flush
  split_ifs with hnil
  · exact ⟨⟨⟨batches, last, hsegs, hsent, hbuf, hbatch⟩, hlen⟩, hnil⟩
  · refine ⟨⟨⟨batches ++ [last], [], ?_, ?_, rfl, ?_⟩, Nat.zero_le _⟩, rfl⟩
    · rw [List.flatten_append, List.flatten_singleton, List.append_nil, hsegs]
    · rw [List.map_append, hsent, hbuf]
      rfl
    · intro batch hb
      obtain hb | hb := List.mem_append.1 hb
      · exact hbatch batch hb
      · rw [List.mem_singleton.1 hb]
        refine ⟨fun hl => hnil ?_, by rwa [← hbuf]⟩
        rw [hbuf, hl]
        rfl

/-- A segment that fits into a datagram is put behind the others. -/
theorem Holds.segment (h : o.Holds kcp.mtu segs) (hfit : seg.size ≤ kcp.mtu.toNat)
    (hbuf : kcp.mtu ≤ kcp.bufferSize) :
    ∃ o', o.segment kcp seg = some o' ∧ o'.Holds kcp.mtu (segs ++ [seg]) := by
  have hbuf' : kcp.mtu.toNat ≤ kcp.bufferSize.toNat := hbuf
  have hres : ∃ o₁, o.reserve kcp.mtu (24 + seg.data.length) = o₁ ∧ o₁.Holds kcp.mtu segs ∧
      o₁.buffer.length + seg.size ≤ kcp.mtu.toNat := by
    unfold Output.reserve
    split_ifs with hlt
    · refine ⟨_, rfl, h.flush.1, ?_⟩
      rw [h.flush.2]
      exact (Nat.zero_add _).le.trans hfit
    · exact ⟨_, rfl, h, Nat.le_of_not_lt hlt⟩
  obtain ⟨o₁, hres, h₁, hroom⟩ := hres
  have hsize : (ikcpEncodeSeg seg ++ seg.data).length = seg.size := by
    rw [List.length_append, length_ikcpEncodeSeg]
    rfl
  unfold Output.segment Output.put
  rw [hres, hsize, if_pos (hroom.trans hbuf')]
  refine ⟨_, rfl, ?_, ?_⟩
  · obtain ⟨⟨batches, last, hsegs, hsent, hbuf, hbatch⟩, -⟩ := h₁
    refine ⟨batches, last ++ [seg], ?_, hsent, ?_, hbatch⟩
    · rw [hsegs, List.append_assoc]
    · rw [encodeAll_append, hbuf, encodeAll_cons, encodeAll_nil, List.append_nil]
  · rw [List.length_append, hsize]
    exact hroom

end Output

variable {kcp : Ikcpcb} {segs : List Segment} {seg : Segment} {o : Output}

/-! ## Acknowledgements and probes -/

/-- All acknowledgements are put out, and `seg` is left with one of the pairs. -/
theorem flushAcks_spec (acks : List (UInt32 × UInt32)) (h : o.Holds kcp.mtu segs)
    (hdata : seg.data = []) (hmtu : 24 ≤ kcp.mtu.toNat) (hbuf : kcp.mtu ≤ kcp.bufferSize) :
    ∃ sn ts o', flushAcks kcp acks seg o = some ({ seg with sn := sn, ts := ts }, o') ∧
      o'.Holds kcp.mtu (segs ++ acks.map fun p => { seg with sn := p.1, ts := p.2 }) := by
  induction acks generalizing segs seg o with
  | nil => exact ⟨seg.sn, seg.ts, o, rfl, by rwa [List.map_nil, List.append_nil]⟩
  | cons p rest ih =>
    obtain ⟨sn, ts⟩ := p
    have hfit : ({ seg with sn := sn, ts := ts } : Segment).size ≤ kcp.mtu.toNat := by
      show 24 + seg.data.length ≤ _
      rwa [hdata]
    obtain ⟨o₁, hput, h₁⟩ := h.segment hfit hbuf
    obtain ⟨sn', ts', o', hrest, h'⟩ := ih h₁ (show Segment.data { seg with sn := sn, ts := ts } = [] from hdata)
    refine ⟨sn', ts', o', ?_, ?_⟩
    · rw [flushAcks]
      simp only [hput, Option.bind_eq_bind, Option.bind_some]
      exact hrest
    · rw [List.append_assoc] at h'
      exact h'

/-- A probe is put out when it is asked for. -/
theorem flushProbe_spec (ask : UInt32) (cmd : UInt8) (h : o.Holds kcp.mtu segs)
    (hdata : seg.data = []) (hmtu : 24 ≤ kcp.mtu.toNat) (hbuf : kcp.mtu ≤ kcp.bufferSize) :
    ∃ cmd' o', flushProbe kcp ask cmd seg o = some ({ seg with cmd := cmd' }, o') ∧
      o'.Holds kcp.mtu (segs ++
        if kcp.probe &&& ask ≠ 0 then [{ seg with cmd := cmd.toUInt32 }] else []) := by
  unfold flushProbe
  split_ifs with hask
  · have hfit : ({ seg with cmd := cmd.toUInt32 } : Segment).size ≤ kcp.mtu.toNat := by
      show 24 + seg.data.length ≤ _
      rwa [hdata]
    obtain ⟨o', hput, h'⟩ := h.segment hfit hbuf
    refine ⟨cmd.toUInt32, o', ?_, h'⟩
    simp only [hput, Option.bind_eq_bind, Option.bind_some]
  · exact ⟨seg.cmd, o, rfl, by rwa [List.append_nil]⟩

/-! ## Data -/

/-- The segments of `queue`, numbered from `snd_nxt` on. -/
def stampAll (kcp : Ikcpcb) (wnd : UInt32) : UInt32 → List Segment → List Segment
  | _, [] => []
  | sn, seg :: rest => stampSegment { kcp with sndNxt := sn } wnd seg :: stampAll kcp wnd (sn + 1) rest

theorem stampAll_congr {kcp' : Ikcpcb} {wnd : UInt32}
    (h : ∀ sn seg, stampSegment { kcp' with sndNxt := sn } wnd seg =
      stampSegment { kcp with sndNxt := sn } wnd seg) (sn : UInt32) (queue : List Segment) :
    stampAll kcp' wnd sn queue = stampAll kcp wnd sn queue := by
  induction queue generalizing sn with
  | nil => rfl
  | cons seg rest ih => rw [stampAll, stampAll, h, ih]

theorem eq_moveNone {queue : List Segment} (hq : kcp.sndQueue = queue) (wnd : UInt32) :
    kcp = { kcp with
      sndQueue := queue.drop 0
      sndBuf := kcp.sndBuf ++ stampAll kcp wnd kcp.sndNxt (queue.take 0)
      nsndQue := kcp.nsndQue - UInt32.ofNat 0
      nsndBuf := kcp.nsndBuf + UInt32.ofNat 0
      sndNxt := kcp.sndNxt + UInt32.ofNat 0 } := by
  subst hq
  simp [stampAll]

/-- The flush moves the first `n` segments of `snd_queue`, until the window is full. -/
theorem moveToSndBuf_eq (cwnd wnd : UInt32) (queue : List Segment) (hq : kcp.sndQueue = queue) :
    ∃ n ≤ queue.length, moveToSndBuf cwnd wnd queue kcp = { kcp with
        sndQueue := queue.drop n
        sndBuf := kcp.sndBuf ++ stampAll kcp wnd kcp.sndNxt (queue.take n)
        nsndQue := kcp.nsndQue - UInt32.ofNat n
        nsndBuf := kcp.nsndBuf + UInt32.ofNat n
        sndNxt := kcp.sndNxt + UInt32.ofNat n } ∧
      (n < queue.length → 0 ≤ itimediff (kcp.sndNxt + UInt32.ofNat n) (kcp.sndUna + cwnd)) := by
  induction queue generalizing kcp with
  | nil => exact ⟨0, le_rfl, eq_moveNone hq wnd, nofun⟩
  | cons newseg rest ih =>
    rw [moveToSndBuf]
    split_ifs with hroom
    · let kcp₁ : Ikcpcb := { kcp with
        sndQueue := rest
        sndBuf := kcp.sndBuf ++ [stampSegment kcp wnd newseg]
        nsndQue := kcp.nsndQue - 1
        nsndBuf := kcp.nsndBuf + 1
        sndNxt := kcp.sndNxt + 1 }
      obtain ⟨n, hn, heq, hfull⟩ := @ih kcp₁ rfl
      have hstamp : ∀ sn q, stampAll kcp₁ wnd sn q = stampAll kcp wnd sn q :=
        stampAll_congr fun _ _ => rfl
      have hadd (m : Nat) : kcp.sndNxt + 1 + UInt32.ofNat m = kcp.sndNxt + UInt32.ofNat (m + 1) := by
        rw [UInt32.ofNat_add]
        grind
      refine ⟨n + 1, Nat.succ_le_succ hn, ?_, fun hlt => ?_⟩
      · rw [heq, hstamp]
        have hque : kcp.nsndQue - 1 - UInt32.ofNat n = kcp.nsndQue - UInt32.ofNat (n + 1) := by
          rw [UInt32.ofNat_add]
          grind
        have hbuf : kcp.nsndBuf + 1 + UInt32.ofNat n = kcp.nsndBuf + UInt32.ofNat (n + 1) := by
          rw [UInt32.ofNat_add]
          grind
        simp only [kcp₁, hque, hbuf, hadd, List.append_assoc]
        rfl
      · rw [← hadd]
        exact hfull (Nat.lt_of_succ_lt_succ hlt)
    · refine ⟨0, Nat.zero_le _, eq_moveNone hq wnd, fun _ => ?_⟩
      have : kcp.sndNxt + UInt32.ofNat 0 = kcp.sndNxt := by simp
      rw [this]
      exact Int.not_lt.1 hroom

/-- The first `n` segments of the queue have numbers and are behind `snd_buf`. -/
structure Drawn (wnd : UInt32) (n : Nat) (kcp kcp' : Ikcpcb) : Prop where
  config : kcp'.config = kcp.config
  sendSide : kcp'.sendSide = ⟨kcp.sndNxt + UInt32.ofNat n, kcp.sndQueue.drop n,
    kcp.sndBuf ++ stampAll kcp wnd kcp.sndNxt (kcp.sndQueue.take n),
    kcp.nsndQue - UInt32.ofNat n, kcp.nsndBuf + UInt32.ofNat n⟩
  sndUna : kcp'.sndUna = kcp.sndUna
  recvSide : kcp'.recvSide = kcp.recvSide
  acklist : kcp'.acklist = kcp.acklist
  current : kcp'.current = kcp.current
  nocwnd : kcp'.nocwnd = kcp.nocwnd
  rmtWnd : kcp'.rmtWnd = kcp.rmtWnd
  probeWait : kcp'.probeWait = kcp.probeWait

theorem moveToSndBuf_drawn (cwnd wnd : UInt32) (kcp : Ikcpcb) :
    ∃ n ≤ kcp.sndQueue.length, Drawn wnd n kcp (moveToSndBuf cwnd wnd kcp.sndQueue kcp) ∧
      (n < kcp.sndQueue.length →
        0 ≤ itimediff (kcp.sndNxt + UInt32.ofNat n) (kcp.sndUna + cwnd)) := by
  obtain ⟨n, hn, heq, hfull⟩ := moveToSndBuf_eq cwnd wnd kcp.sndQueue rfl
  refine ⟨n, hn, ?_, hfull⟩
  rw [heq]
  exact ⟨rfl, rfl, rfl, rfl, rfl, rfl, rfl, rfl, rfl⟩

/-- A segment that was never sent or whose timer has run out. -/
def Segment.Due (seg : Segment) (current : UInt32) : Prop :=
  seg.xmit = 0 ∨ 0 ≤ itimediff current seg.resendts

theorem resendSegment_core (kcp : Ikcpcb) (resent rtomin : UInt32) (seg : Segment) (m : FlushMark) :
    (resendSegment kcp resent rtomin seg m).2.1.core = seg.core := by
  unfold resendSegment
  split_ifs <;> rfl

theorem resendSegment_due {resent rtomin : UInt32} {m : FlushMark} (h : seg.Due kcp.current) :
    (resendSegment kcp resent rtomin seg m).1 = true := by
  unfold resendSegment
  obtain h | h := h
  · rw [if_pos h]
  · split_ifs <;> rfl

theorem Segment.size_eq_of_core {seg' : Segment} (h : seg'.core = seg.core) : seg'.size = seg.size := by
  have : seg'.data = seg.data := congrArg Core.data h
  rw [Segment.size, Segment.size, this]

/-- Of the segments of `snd_buf` the flush sends some, those that are due among them. -/
theorem flushSegments_spec {wnd resent rtomin : UInt32} (queue : List Segment) (m : FlushMark)
    (h : o.Holds kcp.mtu segs) (hfit : ∀ seg ∈ queue, seg.size ≤ kcp.mtu.toNat)
    (hbuf : kcp.mtu ≤ kcp.bufferSize) :
    ∃ left m' o' sent, flushSegments kcp wnd resent rtomin queue m o = some (left, m', o') ∧
      o'.Holds kcp.mtu (segs ++ sent) ∧ left.map Segment.core = queue.map Segment.core ∧
      (∀ seg ∈ sent, seg ∈ left ∧ seg.una = kcp.rcvNxt ∧ seg.wnd = wnd) ∧
      ∀ seg ∈ queue, seg.Due kcp.current → ∃ seg' ∈ sent, seg'.core = seg.core := by
  induction queue generalizing segs m o with
  | nil => exact ⟨[], m, o, [], rfl, by rwa [List.append_nil], rfl, nofun, nofun⟩
  | cons seg rest ih =>
    have hfit' := fun seg' hs => hfit seg' (List.mem_cons_of_mem seg hs)
    have hcore := resendSegment_core kcp resent rtomin seg m
    have hdue : seg.Due kcp.current → (resendSegment kcp resent rtomin seg m).1 = true :=
      resendSegment_due
    rw [flushSegments]
    generalize hres : resendSegment kcp resent rtomin seg m = res at hcore hdue
    obtain ⟨send, seg₁, m₁⟩ := res
    cases send with
    | false =>
      obtain ⟨left, m', o', sent, heq, hholds, hleft, hsent, hall⟩ := ih m₁ h hfit'
      refine ⟨seg₁ :: left, m', o', sent, ?_, hholds, ?_, fun s hs => ?_, fun s hs hd => ?_⟩
      · simp only [heq, Option.bind_eq_bind, Option.bind_some]
      · rw [List.map_cons, List.map_cons, hleft]
        exact congrArg (· :: _) hcore
      · exact ⟨List.mem_cons_of_mem _ (hsent s hs).1, (hsent s hs).2⟩
      · obtain rfl | hs := List.mem_cons.1 hs
        · cases hdue hd
        · exact hall s hs hd
    | true =>
      let seg₂ : Segment := { seg₁ with ts := kcp.current, wnd := wnd, una := kcp.rcvNxt }
      have hcore₂ : seg₂.core = seg.core := hcore
      have hsize : seg₂.size ≤ kcp.mtu.toNat := by
        rw [Segment.size_eq_of_core hcore₂]
        exact hfit seg List.mem_cons_self
      obtain ⟨o₁, hput, h₁⟩ := h.segment hsize hbuf
      obtain ⟨left, m', o', sent, heq, hholds, hleft, hsent, hall⟩ :=
        ih (if kcp.deadLink ≤ seg₂.xmit then { m₁ with state := -1 } else m₁) h₁ hfit'
      refine ⟨seg₂ :: left, m', o', seg₂ :: sent, ?_, ?_, ?_, fun s hs => ?_, fun s hs hd => ?_⟩
      · simp only [seg₂] at hput heq ⊢
        simp only [hput, heq, Option.bind_eq_bind, Option.bind_some]
      · rwa [List.append_assoc] at hholds
      · rw [List.map_cons, List.map_cons, hleft, hcore₂]
      · obtain rfl | hs := List.mem_cons.1 hs
        · exact ⟨List.mem_cons_self, rfl, rfl⟩
        · exact ⟨List.mem_cons_of_mem _ (hsent s hs).1, (hsent s hs).2⟩
      · obtain rfl | hs := List.mem_cons.1 hs
        · exact ⟨seg₂, List.mem_cons_self, hcore₂⟩
        · obtain ⟨s', hs', hc⟩ := hall s hs hd
          exact ⟨s', List.mem_cons_of_mem _ hs', hc⟩

/-! ## The whole flush -/

/-- An acknowledgement or a probe of a flush. -/
structure Control (kcp : Ikcpcb) (seg : Segment) : Prop where
  conv : seg.conv = kcp.conv
  una : seg.una = kcp.rcvNxt
  wnd : seg.wnd = ikcpWndUnused kcp
  data : seg.data = []
  cmd : (seg.cmd = IKCP_CMD_ACK.toUInt32 ∧ (seg.sn, seg.ts) ∈ kcp.acklist) ∨
    seg.cmd = IKCP_CMD_WASK.toUInt32 ∨ seg.cmd = IKCP_CMD_WINS.toUInt32

def Probing (kcp : Ikcpcb) : Prop :=
  kcp.rmtWnd = 0 ∧ kcp.probeWait ≠ 0 ∧ 0 ≤ itimediff kcp.current kcp.tsProbe

/-- What a flush does to a control block, and the segments it puts out. -/
structure Flushed (kcp kcp' : Ikcpcb) (control data : List Segment) : Prop where
  config : kcp'.config = kcp.config
  recvSide : kcp'.recvSide = kcp.recvSide
  acklist : kcp'.acklist = []
  sndUna : kcp'.sndUna = kcp.sndUna
  moved : ∃ n ≤ kcp.sndQueue.length, kcp'.sndQueue = kcp.sndQueue.drop n ∧
    kcp'.sndNxt = kcp.sndNxt + UInt32.ofNat n ∧
    kcp'.nsndQue = kcp.nsndQue - UInt32.ofNat n ∧ kcp'.nsndBuf = kcp.nsndBuf + UInt32.ofNat n ∧
    kcp'.sndBuf.map Segment.core = (kcp.sndBuf ++
      stampAll kcp (ikcpWndUnused kcp) kcp.sndNxt (kcp.sndQueue.take n)).map Segment.core
  /-- What is left in the queue does not fit into the window. -/
  window : kcp'.sndQueue ≠ [] → 0 ≤ itimediff kcp'.sndNxt (kcp.sndUna + flushCwnd kcp)
  controls : ∀ seg ∈ control, Control kcp seg
  acks : ∀ p ∈ kcp.acklist, ∃ seg ∈ control, seg.cmd = IKCP_CMD_ACK.toUInt32 ∧ seg.sn = p.1
  datas : ∀ seg ∈ data, seg ∈ kcp'.sndBuf ∧ seg.una = kcp.rcvNxt ∧ seg.wnd = ikcpWndUnused kcp
  due : ∀ seg ∈ kcp.sndBuf, seg.Due kcp.current → ∃ seg' ∈ data, seg'.core = seg.core
  cwnd : 1 ≤ kcp'.cwnd
  nocwnd : kcp'.nocwnd = kcp.nocwnd
  rmtWnd : kcp'.rmtWnd = kcp.rmtWnd
  tells : kcp.probe &&& IKCP_ASK_TELL ≠ 0 → control ≠ []
  asks : Probing kcp → ∃ seg ∈ control, seg.cmd = IKCP_CMD_WASK.toUInt32
  waits : kcp.rmtWnd = 0 → kcp.probeWait = 0 → kcp'.probeWait = IKCP_PROBE_INIT

theorem one_le_updateCwnd (kcp : Ikcpcb) (cwnd resent : UInt32) (m : FlushMark) :
    1 ≤ (updateCwnd kcp cwnd resent m).cwnd := by
  unfold updateCwnd
  dsimp only
  split_ifs with h
  · exact UInt32.le_refl 1
  · exact UInt32.not_lt.1 h

/-- The end of a flush sets the congestion window only. -/
theorem updateCwnd_frame (kcp : Ikcpcb) (cwnd resent : UInt32) (m : FlushMark) :
    (updateCwnd kcp cwnd resent m).nocwnd = kcp.nocwnd ∧
      (updateCwnd kcp cwnd resent m).rmtWnd = kcp.rmtWnd ∧
      (updateCwnd kcp cwnd resent m).probeWait = kcp.probeWait := by
  unfold updateCwnd shrinkOnLoss shrinkOnChange
  dsimp only
  split_ifs <;> exact ⟨rfl, rfl, rfl⟩

theorem or_ask_and_tell (probe : UInt32) :
    (probe ||| IKCP_ASK_SEND) &&& IKCP_ASK_TELL = probe &&& IKCP_ASK_TELL := by
  apply UInt32.toBitVec_inj.1
  show (probe.toBitVec ||| 1#32) &&& 2#32 = probe.toBitVec &&& 2#32
  ext i hi
  simp
  grind

theorem or_ask_and_ask (probe : UInt32) : (probe ||| IKCP_ASK_SEND) &&& IKCP_ASK_SEND ≠ 0 := by
  intro h
  have hbit := congrArg (fun n => n.toBitVec.getLsbD 0) h
  simp [IKCP_ASK_SEND] at hbit

/-- The probe timer decides whether the other side is asked. -/
theorem updateProbe_eq (kcp : Ikcpcb) :
    ∃ wait ts ask, updateProbe kcp = { kcp with probeWait := wait, tsProbe := ts, probe := ask } ∧
      (ask = kcp.probe ∨ ask = kcp.probe ||| IKCP_ASK_SEND) ∧
      (Probing kcp → ask = kcp.probe ||| IKCP_ASK_SEND) ∧
      (kcp.rmtWnd = 0 → kcp.probeWait = 0 → wait = IKCP_PROBE_INIT) := by
  unfold updateProbe
  by_cases hwnd : kcp.rmtWnd = 0
  · rw [if_pos hwnd]
    by_cases hwait : kcp.probeWait = 0
    · rw [if_pos hwait]
      exact ⟨_, _, _, rfl, .inl rfl, fun h => absurd hwait h.2.1, fun _ _ => rfl⟩
    · rw [if_neg hwait]
      by_cases htime : 0 ≤ itimediff kcp.current kcp.tsProbe
      · rw [if_pos htime]
        exact ⟨_, _, _, rfl, .inr rfl, fun _ => rfl, fun _ h => absurd h hwait⟩
      · rw [if_neg htime]
        exact ⟨_, _, _, rfl, .inl rfl, fun h => absurd h.2.2 htime, fun _ h => absurd h hwait⟩
  · rw [if_neg hwnd]
    exact ⟨_, _, _, rfl, .inl rfl, fun h => absurd h.1 hwnd, fun h => absurd h hwnd⟩

theorem updateProbe_spec (kcp : Ikcpcb) :
    (updateProbe kcp).current = kcp.current ∧ (updateProbe kcp).nocwnd = kcp.nocwnd ∧
      (updateProbe kcp).rmtWnd = kcp.rmtWnd ∧ flushCwnd (updateProbe kcp) = flushCwnd kcp ∧
      (updateProbe kcp).probe &&& IKCP_ASK_TELL = kcp.probe &&& IKCP_ASK_TELL ∧
      (Probing kcp → (updateProbe kcp).probe &&& IKCP_ASK_SEND ≠ 0) ∧
      (kcp.rmtWnd = 0 → kcp.probeWait = 0 → (updateProbe kcp).probeWait = IKCP_PROBE_INIT) := by
  obtain ⟨wait, ts, ask, heq, hask, hprobing, hwait⟩ := updateProbe_eq kcp
  rw [heq]
  refine ⟨rfl, rfl, rfl, rfl, ?_, fun h => ?_, hwait⟩
  · show ask &&& IKCP_ASK_TELL = _
    obtain rfl | rfl := hask
    · rfl
    · exact or_ask_and_tell _
  · show ask &&& IKCP_ASK_SEND ≠ 0
    rw [hprobing h]
    exact or_ask_and_ask _

/-- What the first part of a flush does, and the segments it puts out. -/
structure Controlled (kcp kcp' : Ikcpcb) (control : List Segment) : Prop where
  parts : SameParts { kcp with acklist := [] } kcp'
  current : kcp'.current = kcp.current
  nocwnd : kcp'.nocwnd = kcp.nocwnd
  rmtWnd : kcp'.rmtWnd = kcp.rmtWnd
  flushCwnd : flushCwnd kcp' = flushCwnd kcp
  controls : ∀ seg ∈ control, Control kcp seg
  acks : ∀ p ∈ kcp.acklist, ∃ seg ∈ control, seg.cmd = IKCP_CMD_ACK.toUInt32 ∧ seg.sn = p.1
  tells : kcp.probe &&& IKCP_ASK_TELL ≠ 0 → control ≠ []
  asks : Probing kcp → ∃ seg ∈ control, seg.cmd = IKCP_CMD_WASK.toUInt32
  waits : kcp.rmtWnd = 0 → kcp.probeWait = 0 → kcp'.probeWait = IKCP_PROBE_INIT

/-- Acknowledgements and probes. The control block they leave has the same parts, without the list of
acknowledgements. -/
theorem flushControl_spec (hmtu : 24 ≤ kcp.mtu.toNat) (hbuf : kcp.mtu ≤ kcp.bufferSize) :
    ∃ kcp' o control, flushControl kcp = some (kcp', o) ∧ o.Holds kcp.mtu control ∧
      Controlled kcp kcp' control := by
  let seg₀ : Segment := {
    conv := kcp.conv
    cmd := IKCP_CMD_ACK.toUInt32
    wnd := ikcpWndUnused kcp
    una := kcp.rcvNxt }
  obtain ⟨sn, ts, o₁, hacks, h₁⟩ := flushAcks_spec kcp.acklist (Output.holds_empty kcp.mtu)
    (show seg₀.data = [] from rfl) hmtu hbuf
  rw [List.nil_append] at h₁
  let kcp₁ := updateProbe { kcp with acklist := [] }
  have hparts : SameParts { kcp with acklist := [] } kcp₁ := .updateProbe _
  have hconf : kcp₁.mtu = kcp.mtu ∧ kcp₁.bufferSize = kcp.bufferSize :=
    ⟨congrArg Config.mtu hparts.config, congrArg Config.bufferSize hparts.config⟩
  let seg₁ : Segment := { seg₀ with sn := sn, ts := ts }
  obtain ⟨cmd₂, o₂, hask, h₂⟩ := @flushProbe_spec kcp₁ _ seg₁ o₁ IKCP_ASK_SEND IKCP_CMD_WASK
    (by rwa [hconf.1]) rfl (by rwa [hconf.1]) (by rwa [hconf.1, hconf.2])
  let seg₂ : Segment := { seg₁ with cmd := cmd₂ }
  obtain ⟨cmd₃, o₃, htell, h₃⟩ := @flushProbe_spec kcp₁ _ seg₂ o₂ IKCP_ASK_TELL IKCP_CMD_WINS
    h₂ rfl (by rwa [hconf.1]) (by rwa [hconf.1, hconf.2])
  rw [hconf.1] at h₃
  obtain ⟨hcur, hno, hrmt, hcwnd, hkeep, hasked, hwait⟩ := updateProbe_spec { kcp with acklist := [] }
  refine ⟨{ kcp₁ with probe := 0 }, o₃, _, ?_, h₃, hparts.trans ⟨rfl, rfl, rfl, rfl, rfl⟩, hcur, hno, hrmt,
    hcwnd, ?_, ?_, fun ht => ?_, fun ha => ?_, hwait⟩
  · unfold flushControl
    simp only [seg₀] at hacks
    simp only [hacks, Option.bind_eq_bind, Option.bind_some]
    simp only [kcp₁, seg₁, seg₀] at hask
    simp only [hask, Option.bind_some]
    simp only [kcp₁, seg₂, seg₁, seg₀] at htell
    simp only [htell, Option.bind_some]
    rfl
  · intro seg hseg
    obtain hseg | hseg := List.mem_append.1 hseg
    · obtain hseg | hseg := List.mem_append.1 hseg
      · obtain ⟨p, hp, rfl⟩ := List.mem_map.1 hseg
        exact ⟨rfl, rfl, rfl, rfl, .inl ⟨rfl, hp⟩⟩
      · split_ifs at hseg
        · rw [List.mem_singleton.1 hseg]
          exact ⟨rfl, rfl, rfl, rfl, .inr (.inl rfl)⟩
        · cases hseg
    · split_ifs at hseg
      · rw [List.mem_singleton.1 hseg]
        exact ⟨rfl, rfl, rfl, rfl, .inr (.inr rfl)⟩
      · cases hseg
  · intro p hp
    refine ⟨{ seg₀ with sn := p.1, ts := p.2 }, ?_, rfl, rfl⟩
    apply List.mem_append_left
    apply List.mem_append_left
    exact List.mem_map.2 ⟨p, hp, rfl⟩
  · have htell' : kcp₁.probe &&& IKCP_ASK_TELL ≠ 0 := hkeep ▸ ht
    rw [if_pos htell']
    exact List.append_ne_nil_of_right_ne_nil _ (List.cons_ne_nil _ _)
  · have hask' : kcp₁.probe &&& IKCP_ASK_SEND ≠ 0 := hasked ha
    refine ⟨{ seg₁ with cmd := IKCP_CMD_WASK.toUInt32 }, ?_, rfl⟩
    apply List.mem_append_left
    apply List.mem_append_right
    rw [if_pos hask']
    exact List.mem_singleton_self _

theorem size_of_mem_stampAll {wnd : UInt32} {n : Nat} {sn : UInt32} {queue : List Segment}
    (h : ∀ seg ∈ queue, seg.size ≤ n) : ∀ seg ∈ stampAll kcp wnd sn queue, seg.size ≤ n := by
  induction queue generalizing sn with
  | nil => exact nofun
  | cons seg rest ih =>
    intro seg' hs
    obtain rfl | hs := List.mem_cons.1 hs
    · exact h seg List.mem_cons_self
    · exact ih (fun seg' hs => h seg' (List.mem_cons_of_mem _ hs)) seg' hs

theorem core_stampAll {kcp' : Ikcpcb} (hconv : kcp'.conv = kcp.conv) (wnd sn : UInt32)
    (queue : List Segment) : (stampAll kcp' wnd sn queue).map Segment.core =
      (stampAll kcp wnd sn queue).map Segment.core := by
  induction queue generalizing sn with
  | nil => rfl
  | cons seg rest ih =>
    have hcore : (stampSegment { kcp' with sndNxt := sn } wnd seg).core =
        (stampSegment { kcp with sndNxt := sn } wnd seg).core := by
      unfold stampSegment Segment.core
      rw [hconv]
    rw [stampAll, stampAll, List.map_cons, List.map_cons, hcore, ih]

theorem Drawn.fit {wnd : UInt32} {n mtu : Nat} (h : Drawn wnd n kcp kcp')
    (hbuf : ∀ seg ∈ kcp.sndBuf, seg.size ≤ mtu) (hque : ∀ seg ∈ kcp.sndQueue, seg.size ≤ mtu) :
    ∀ seg ∈ kcp'.sndBuf, seg.size ≤ mtu := by
  rw [show kcp'.sndBuf = _ from congrArg SendSide.sndBuf h.sendSide]
  intro seg hs
  obtain hs | hs := List.mem_append.1 hs
  · exact hbuf seg hs
  · exact size_of_mem_stampAll (fun seg hs => hque seg (List.mem_of_mem_take hs)) seg hs

/-- The parts of a flush together: `left` is what its last loop makes of `snd_buf`, `sent` what it sends. -/
theorem Flushed.of_controlled {kcp₁ kcp₂ : Ikcpcb} {control left sent : List Segment} {n : Nat}
    (hctl : Controlled kcp kcp₁ control) (hn : n ≤ kcp₁.sndQueue.length)
    (hdrawn : Drawn (ikcpWndUnused kcp) n kcp₁ kcp₂)
    (hfull : n < kcp₁.sndQueue.length →
      0 ≤ itimediff (kcp₁.sndNxt + UInt32.ofNat n) (kcp₁.sndUna + flushCwnd kcp₁))
    (hleft : left.map Segment.core = kcp₂.sndBuf.map Segment.core)
    (hsent : ∀ seg ∈ sent, seg ∈ left ∧ seg.una = kcp₂.rcvNxt ∧ seg.wnd = ikcpWndUnused kcp)
    (hdue : ∀ seg ∈ kcp₂.sndBuf, seg.Due kcp₂.current → ∃ seg' ∈ sent, seg'.core = seg.core)
    (cwnd resent : UInt32) (m : FlushMark) :
    Flushed kcp (updateCwnd { kcp₂ with sndBuf := left, xmit := m.xmit, state := m.state } cwnd resent m)
      control sent := by
  let kcp₃ := updateCwnd { kcp₂ with sndBuf := left, xmit := m.xmit, state := m.state } cwnd resent m
  have hparts : SameParts { kcp₂ with sndBuf := left, xmit := m.xmit, state := m.state } kcp₃ :=
    .updateCwnd _ _ _ _
  obtain ⟨hno, hrmt, hwait⟩ :=
    updateCwnd_frame { kcp₂ with sndBuf := left, xmit := m.xmit, state := m.state } cwnd resent m
  have hsend : kcp₁.sendSide = kcp.sendSide := hctl.parts.sendSide
  have hqueue : kcp₁.sndQueue = kcp.sndQueue := congrArg SendSide.sndQueue hsend
  have hnxt : kcp₁.sndNxt = kcp.sndNxt := congrArg SendSide.sndNxt hsend
  have huna : kcp₁.sndUna = kcp.sndUna := hctl.parts.sndUna
  have hbuf₂ : kcp₂.sndBuf = kcp.sndBuf ++
      stampAll kcp₁ (ikcpWndUnused kcp) kcp.sndNxt (kcp.sndQueue.take n) := by
    rw [← hqueue, ← hnxt, ← show kcp₁.sndBuf = kcp.sndBuf from congrArg SendSide.sndBuf hsend]
    exact congrArg SendSide.sndBuf hdrawn.sendSide
  have hsend₃ : kcp₃.sendSide = ⟨kcp.sndNxt + UInt32.ofNat n, kcp.sndQueue.drop n, left,
      kcp.nsndQue - UInt32.ofNat n, kcp.nsndBuf + UInt32.ofNat n⟩ := by
    rw [hparts.sendSide]
    show { kcp₂.sendSide with sndBuf := left } = _
    rw [hdrawn.sendSide]
    show SendSide.mk (kcp₁.sendSide.sndNxt + _) (kcp₁.sendSide.sndQueue.drop n) left
      (kcp₁.sendSide.nsndQue - _) (kcp₁.sendSide.nsndBuf + _) = _
    rw [hsend]
    rfl
  have hbuf₃ : kcp₃.sndBuf = left := congrArg SendSide.sndBuf hsend₃
  have hque₃ : kcp₃.sndQueue = kcp.sndQueue.drop n := congrArg SendSide.sndQueue hsend₃
  have hnxt₃ : kcp₃.sndNxt = kcp.sndNxt + UInt32.ofNat n := congrArg SendSide.sndNxt hsend₃
  exact {
    config := hparts.config.trans (hdrawn.config.trans hctl.parts.config)
    recvSide := hparts.recvSide.trans (hdrawn.recvSide.trans hctl.parts.recvSide)
    acklist := hparts.acklist.trans (hdrawn.acklist.trans hctl.parts.acklist)
    sndUna := hparts.sndUna.trans (hdrawn.sndUna.trans huna)
    moved := by
      refine ⟨n, hqueue ▸ hn, hque₃, hnxt₃, congrArg SendSide.nsndQue hsend₃,
        congrArg SendSide.nsndBuf hsend₃, ?_⟩
      rw [hbuf₃, hleft, hbuf₂, List.map_append, List.map_append]
      rw [core_stampAll (congrArg Config.conv hctl.parts.config)]
    window := by
      intro hne
      rw [hque₃] at hne
      have hlt : n < kcp₁.sndQueue.length := by
        refine Nat.lt_of_not_le fun hle => hne ?_
        exact List.drop_eq_nil_of_le (hqueue ▸ hle)
      rw [hnxt₃, ← hctl.flushCwnd, ← hnxt, ← huna]
      exact hfull hlt
    controls := hctl.controls
    acks := hctl.acks
    datas := by
      intro seg hs
      obtain ⟨hmem, hseg, hwnd⟩ := hsent seg hs
      have hrecv : kcp₂.recvSide = kcp.recvSide := hdrawn.recvSide.trans hctl.parts.recvSide
      refine ⟨?_, hseg.trans (congrArg RecvSide.rcvNxt hrecv), hwnd⟩
      show seg ∈ kcp₃.sndBuf
      rwa [hbuf₃]
    due := by
      intro seg hs hd
      apply hdue seg
      · rw [hbuf₂]
        exact List.mem_append_left _ hs
      · rwa [hdrawn.current, hctl.current]
    cwnd := one_le_updateCwnd _ _ _ _
    nocwnd := hno.trans (hdrawn.nocwnd.trans hctl.nocwnd)
    rmtWnd := hrmt.trans (hdrawn.rmtWnd.trans hctl.rmtWnd)
    tells := hctl.tells
    asks := hctl.asks
    waits := fun h h' => hwait.trans (hdrawn.probeWait.trans (hctl.waits h h')) }

/-- A flush never runs out of buffer when every segment fits into a datagram. -/
theorem ikcpFlush_spec (hup : kcp.updated ≠ 0) (hmtu : 24 ≤ kcp.mtu.toNat)
    (hbuf : kcp.mtu ≤ kcp.bufferSize) (hfit : ∀ seg ∈ kcp.sndBuf, seg.size ≤ kcp.mtu.toNat)
    (hfitq : ∀ seg ∈ kcp.sndQueue, seg.size ≤ kcp.mtu.toNat) :
    ∃ (kcp' : Ikcpcb) (batches : List (List Segment)) (control data : List Segment),
      ikcpFlush kcp = some (kcp', batches.map encodeAll) ∧
      (∀ batch ∈ batches, Datagram kcp.mtu.toNat batch) ∧ batches.flatten = control ++ data ∧
      Flushed kcp kcp' control data := by
  obtain ⟨kcp₁, o₁, control, heq₁, h₁, hctl⟩ := flushControl_spec hmtu hbuf
  have hsend : kcp₁.sendSide = kcp.sendSide := hctl.parts.sendSide
  -- the data that the window has room for
  obtain ⟨n, hn, hdrawn, hfull⟩ := moveToSndBuf_drawn (flushCwnd kcp₁) (ikcpWndUnused kcp) kcp₁
  generalize hkcp₂ : moveToSndBuf (flushCwnd kcp₁) (ikcpWndUnused kcp) kcp₁.sndQueue kcp₁ = kcp₂ at hdrawn
  have hconf₂ : kcp₂.config = kcp.config := hdrawn.config.trans hctl.parts.config
  have hmtu₂ : kcp₂.mtu = kcp.mtu := congrArg Config.mtu hconf₂
  have hbuf₂ : kcp₂.bufferSize = kcp.bufferSize := congrArg Config.bufferSize hconf₂
  have hfit₂ : ∀ seg ∈ kcp₂.sndBuf, seg.size ≤ kcp₂.mtu.toNat := by
    rw [hmtu₂]
    apply hdrawn.fit
    · rwa [show kcp₁.sndBuf = kcp.sndBuf from congrArg SendSide.sndBuf hsend]
    · rwa [show kcp₁.sndQueue = kcp.sndQueue from congrArg SendSide.sndQueue hsend]
  let resent := if 0 < kcp₂.fastresend then kcp₂.fastresend.toUInt32 else 0xffffffff
  let rtomin := if kcp₂.nodelay = 0 then (kcp₂.rxRto >>> 3).toUInt32 else 0
  obtain ⟨left, m, o₃, sent, heq₃, h₃, hleft, hsent, hdue⟩ :=
    @flushSegments_spec kcp₂ control o₁ (ikcpWndUnused kcp) resent rtomin kcp₂.sndBuf
      { xmit := kcp₂.xmit, state := kcp₂.state } (by rwa [hmtu₂]) hfit₂ (by rwa [hmtu₂, hbuf₂])
  obtain ⟨⟨⟨batches, last, hbatches, hbsent, hbbuf, hdatagram⟩, -⟩, hempty⟩ := h₃.flush
  refine ⟨_, batches, control, sent, ?_, ?_, ?_,
    .of_controlled hctl hn hdrawn hfull hleft hsent hdue (flushCwnd kcp₁) resent m⟩
  · unfold ikcpFlush
    rw [if_neg hup]
    simp only [heq₁, Option.bind_eq_bind, Option.bind_some]
    rw [hkcp₂, heq₃, Option.bind_some, hbsent]
  · rwa [hmtu₂] at hdatagram
  · -- the buffer is empty after the last flush
    have hlast : last = [] := by
      rw [hempty] at hbbuf
      exact Output.encodeAll_eq_nil.1 hbbuf.symm
    rw [hlast, List.append_nil] at hbatches
    exact hbatches.symm

end FwkMlib.Kcp
