import FwkMlib.Kcp.Segment

/-!
# The control block of KCP

Allocations succeed: the source asserts it or aborts. Buffers that callers pass are not `NULL`, log
lines are left out. The queues are lists of segments, the first one at the head; the members that count
them are kept as in the source.

* `ikcpSend`, `ikcpRecv` : the upper level;
* `ikcpInput` : the lower level;
* `ikcpFlush`, `ikcpUpdate` : what is put on the wire. The outcome is `none` when the flush buffer is
  overrun.
-/

namespace FwkMlib.Kcp
open FwkMlib.Lib

/-- `IKCPCB`. `bufferSize` is the size of the allocation behind `buffer`; `acklist` holds the first
`ackcount` pairs. -/
structure Ikcpcb where
  conv : UInt32
  mtu : UInt32
  mss : UInt32
  state : UInt32
  sndUna : UInt32
  sndNxt : UInt32
  rcvNxt : UInt32
  ssthresh : UInt32
  rxRttval : Int32
  rxSrtt : Int32
  rxRto : Int32
  rxMinrto : Int32
  sndWnd : UInt32
  rcvWnd : UInt32
  rmtWnd : UInt32
  cwnd : UInt32
  probe : UInt32
  current : UInt32
  interval : UInt32
  tsFlush : UInt32
  xmit : UInt32
  nrcvBuf : UInt32
  nsndBuf : UInt32
  nrcvQue : UInt32
  nsndQue : UInt32
  nodelay : UInt32
  updated : UInt32
  tsProbe : UInt32
  probeWait : UInt32
  deadLink : UInt32
  incr : UInt32
  sndQueue : List Segment
  rcvQueue : List Segment
  sndBuf : List Segment
  rcvBuf : List Segment
  acklist : List (UInt32 × UInt32)
  bufferSize : UInt32
  fastresend : Int32
  fastlimit : Int32
  nocwnd : Int32
  stream : Int32
  deriving DecidableEq, Repr

def ikcpCreate (conv : UInt32) : Ikcpcb where
  conv := conv
  mtu := IKCP_MTU_DEF
  mss := IKCP_MTU_DEF - IKCP_OVERHEAD
  state := 0
  sndUna := 0
  sndNxt := 0
  rcvNxt := 0
  ssthresh := IKCP_THRESH_INIT
  rxRttval := 0
  rxSrtt := 0
  rxRto := IKCP_RTO_DEF
  rxMinrto := IKCP_RTO_MIN
  sndWnd := IKCP_WND_SND
  rcvWnd := IKCP_WND_RCV
  rmtWnd := IKCP_WND_RCV
  cwnd := 0
  probe := 0
  current := 0
  interval := IKCP_INTERVAL
  tsFlush := IKCP_INTERVAL
  xmit := 0
  nrcvBuf := 0
  nsndBuf := 0
  nrcvQue := 0
  nsndQue := 0
  nodelay := 0
  updated := 0
  tsProbe := 0
  probeWait := 0
  deadLink := IKCP_DEADLINK
  incr := 0
  sndQueue := []
  rcvQueue := []
  sndBuf := []
  rcvBuf := []
  acklist := []
  bufferSize := (IKCP_MTU_DEF + IKCP_OVERHEAD) * 3
  fastresend := 0
  fastlimit := IKCP_FASTACK_LIMIT
  nocwnd := 0
  stream := 0

/-! ## Configuration -/

def ikcpSetmtu (kcp : Ikcpcb) (mtu : Int32) : Int × Ikcpcb :=
  if mtu < 50 ∨ mtu < IKCP_OVERHEAD.toInt32 then (-1, kcp) else
  (0, { kcp with
    mtu := mtu.toUInt32
    mss := mtu.toUInt32 - IKCP_OVERHEAD
    bufferSize := (mtu.toUInt32 + IKCP_OVERHEAD) * 3 })

def boundInterval (interval : Int32) : UInt32 :=
  if 5000 < interval then 5000 else if interval < 10 then 10 else interval.toUInt32

def ikcpInterval (kcp : Ikcpcb) (interval : Int32) : Ikcpcb :=
  { kcp with interval := boundInterval interval }

def ikcpNodelay (kcp : Ikcpcb) (nodelay interval resend nc : Int32) : Ikcpcb :=
  { kcp with
    nodelay := if 0 ≤ nodelay then nodelay.toUInt32 else kcp.nodelay
    rxMinrto :=
      if 0 ≤ nodelay then if nodelay ≠ 0 then IKCP_RTO_NDL else IKCP_RTO_MIN else kcp.rxMinrto
    interval := if 0 ≤ interval then boundInterval interval else kcp.interval
    fastresend := if 0 ≤ resend then resend else kcp.fastresend
    nocwnd := if 0 ≤ nc then nc else kcp.nocwnd }

def ikcpWndsize (kcp : Ikcpcb) (sndwnd rcvwnd : Int32) : Ikcpcb :=
  { kcp with
    sndWnd := if 0 < sndwnd then sndwnd.toUInt32 else kcp.sndWnd
    rcvWnd := if 0 < rcvwnd then imax rcvwnd.toUInt32 IKCP_WND_RCV else kcp.rcvWnd }

/-! ## The upper level -/

/-- The lengths up to the last fragment of a message. -/
def peekLength : List Segment → Nat
  | [] => 0
  | seg :: rest => seg.data.length + if seg.frg = 0 then 0 else peekLength rest

def ikcpPeeksize (kcp : Ikcpcb) : Int :=
  match kcp.rcvQueue with
  | [] => -1
  | seg :: _ =>
    if seg.frg = 0 then seg.data.length else
    if kcp.nrcvQue < seg.frg + 1 then -1 else peekLength kcp.rcvQueue

/-- The loop of `ikcp_recv` that merges fragments: the data, the segments left and `nrcv_que`. -/
def mergeFragments : List Segment → UInt32 → List UInt8 × List Segment × UInt32
  | [], nrcvQue => ([], [], nrcvQue)
  | seg :: rest, nrcvQue =>
    if seg.frg = 0 then (seg.data, rest, nrcvQue - 1) else
    let (data, left, nrcvQue) := mergeFragments rest (nrcvQue - 1)
    (seg.data ++ data, left, nrcvQue)

/-- The loop that moves available data from `rcv_buf` to `rcv_queue`, in `ikcp_recv` and in
`ikcp_parse_data`. -/
def moveAvailable : List Segment → Ikcpcb → Ikcpcb
  | [], kcp => kcp
  | seg :: rest, kcp =>
    if seg.sn = kcp.rcvNxt ∧ kcp.nrcvQue < kcp.rcvWnd then
      moveAvailable rest { kcp with
        rcvBuf := rest
        nrcvBuf := kcp.nrcvBuf - 1
        rcvQueue := kcp.rcvQueue ++ [seg]
        nrcvQue := kcp.nrcvQue + 1
        rcvNxt := kcp.rcvNxt + 1 }
    else kcp

/-- `ikcp_recv`: its value, the bytes it copies and the control block after it. A negative `len` peeks. -/
def ikcpRecv (kcp : Ikcpcb) (len : Int) : Int × List UInt8 × Ikcpcb :=
  if kcp.rcvQueue = [] then (-1, [], kcp) else
  let peeksize := ikcpPeeksize kcp
  if peeksize < 0 then (-2, [], kcp) else
  if (len.natAbs : Int) < peeksize then (-3, [], kcp) else
  let recover := kcp.rcvWnd ≤ kcp.nrcvQue
  let (data, left, nrcvQue) := mergeFragments kcp.rcvQueue kcp.nrcvQue
  let kcp := if len < 0 then kcp else { kcp with rcvQueue := left, nrcvQue := nrcvQue }
  let kcp := moveAvailable kcp.rcvBuf kcp
  -- fast recover
  let kcp :=
    if kcp.nrcvQue < kcp.rcvWnd ∧ recover then { kcp with probe := kcp.probe ||| IKCP_ASK_TELL }
    else kcp
  (data.length, data, kcp)

/-- The loop of `ikcp_send` over the fragments, `n` of them left. -/
def ikcpFragments (stream : Int32) (mss : Nat) : Nat → List UInt8 → List Segment
  | 0, _ => []
  | n + 1, data =>
    { frg := if stream = 0 then UInt32.ofNat n else 0, data := data.take mss } ::
      ikcpFragments stream mss n (data.drop mss)

/-- `ikcp_send` in streaming mode: the last segment of `snd_queue` takes what it has room for. How
many bytes that is, and the control block. -/
def extendLast (kcp : Ikcpcb) (data : List UInt8) : Nat × Ikcpcb :=
  match kcp.sndQueue.getLast? with
  | none => (0, kcp)
  | some old =>
    if old.data.length < kcp.mss.toNat then
      let extend := min data.length (kcp.mss.toNat - old.data.length)
      let seg : Segment := { data := old.data ++ data.take extend }
      (extend, { kcp with sndQueue := kcp.sndQueue.dropLast ++ [seg] })
    else (0, kcp)

/-- The second part of `ikcp_send`, after `sent` bytes went to the last segment. -/
def sendFragments (kcp : Ikcpcb) (sent : Nat) (data : List UInt8) : Int × Ikcpcb :=
  let mss := kcp.mss.toNat
  let count := if data.length ≤ mss then 1 else (data.length + mss - 1) / mss
  if IKCP_WND_RCV.toNat ≤ count then
    if kcp.stream ≠ 0 ∧ 0 < sent then (sent, kcp) else (-2, kcp)
  else
    let count := if count = 0 then 1 else count
    let segs := ikcpFragments kcp.stream mss count data
    (sent + (segs.map fun seg => seg.data.length).sum,
      { kcp with sndQueue := kcp.sndQueue ++ segs, nsndQue := kcp.nsndQue + UInt32.ofNat count })

/-- `ikcp_send`: its value and the control block after it. -/
def ikcpSend (kcp : Ikcpcb) (buffer : List UInt8) (len : Int) : Int × Ikcpcb :=
  if len < 0 then (-1, kcp) else
  let data := buffer.take len.toNat
  let (sent, kcp) := if kcp.stream ≠ 0 then extendLast kcp data else (0, kcp)
  let data := data.drop sent
  if kcp.stream ≠ 0 ∧ data.length = 0 then (sent, kcp) else sendFragments kcp sent data

/-! ## Acknowledgements -/

def ikcpUpdateAck (kcp : Ikcpcb) (rtt : Int32) : Ikcpcb :=
  let (srtt, rttval) :=
    if kcp.rxSrtt = 0 then (rtt, rtt / 2) else
    let delta := if rtt - kcp.rxSrtt < 0 then -(rtt - kcp.rxSrtt) else rtt - kcp.rxSrtt
    let srtt := (7 * kcp.rxSrtt + rtt) / 8
    (if srtt < 1 then 1 else srtt, (3 * kcp.rxRttval + delta) / 4)
  let rto := srtt.toUInt32 + imax kcp.interval (4 * rttval).toUInt32
  { kcp with
    rxSrtt := srtt
    rxRttval := rttval
    rxRto := (ibound kcp.rxMinrto.toUInt32 rto IKCP_RTO_MAX).toInt32 }

def ikcpShrinkBuf (kcp : Ikcpcb) : Ikcpcb :=
  match kcp.sndBuf with
  | seg :: _ => { kcp with sndUna := seg.sn }
  | [] => { kcp with sndUna := kcp.sndNxt }

/-- The loop of `ikcp_parse_ack`, with `nsnd_buf`. -/
def removeAcked (sn : UInt32) : List Segment → UInt32 → List Segment × UInt32
  | [], nsndBuf => ([], nsndBuf)
  | seg :: rest, nsndBuf =>
    if sn = seg.sn then (rest, nsndBuf - 1) else
    if itimediff sn seg.sn < 0 then (seg :: rest, nsndBuf) else
    let (left, nsndBuf) := removeAcked sn rest nsndBuf
    (seg :: left, nsndBuf)

def ikcpParseAck (kcp : Ikcpcb) (sn : UInt32) : Ikcpcb :=
  if itimediff sn kcp.sndUna < 0 ∨ 0 ≤ itimediff sn kcp.sndNxt then kcp else
  let (sndBuf, nsndBuf) := removeAcked sn kcp.sndBuf kcp.nsndBuf
  { kcp with sndBuf := sndBuf, nsndBuf := nsndBuf }

/-- The loop of `ikcp_parse_una`, with `nsnd_buf`. -/
def removeUna (una : UInt32) : List Segment → UInt32 → List Segment × UInt32
  | [], nsndBuf => ([], nsndBuf)
  | seg :: rest, nsndBuf =>
    if 0 < itimediff una seg.sn then removeUna una rest (nsndBuf - 1) else (seg :: rest, nsndBuf)

def ikcpParseUna (kcp : Ikcpcb) (una : UInt32) : Ikcpcb :=
  let (sndBuf, nsndBuf) := removeUna una kcp.sndBuf kcp.nsndBuf
  { kcp with sndBuf := sndBuf, nsndBuf := nsndBuf }

/-- The loop of `ikcp_parse_fastack`. -/
def countSkipped (sn ts : UInt32) : List Segment → List Segment
  | [] => []
  | seg :: rest =>
    if itimediff sn seg.sn < 0 then seg :: rest else
    let seg :=
      if sn ≠ seg.sn ∧ 0 ≤ itimediff ts seg.ts then { seg with fastack := seg.fastack + 1 } else seg
    seg :: countSkipped sn ts rest

def ikcpParseFastack (kcp : Ikcpcb) (sn ts : UInt32) : Ikcpcb :=
  if itimediff sn kcp.sndUna < 0 ∨ 0 ≤ itimediff sn kcp.sndNxt then kcp else
  { kcp with sndBuf := countSkipped sn ts kcp.sndBuf }

def ikcpAckPush (kcp : Ikcpcb) (sn ts : UInt32) : Ikcpcb :=
  { kcp with acklist := kcp.acklist ++ [(sn, ts)] }

/-! ## Data -/

/-- The loop of `ikcp_parse_data` that looks for a place from the tail on; `none` for a repeated one.
The list is `rcv_buf` from its tail. -/
def insertFromTail (newseg : Segment) : List Segment → Option (List Segment)
  | [] => some [newseg]
  | seg :: prev =>
    if seg.sn = newseg.sn then none else
    if 0 < itimediff newseg.sn seg.sn then some (newseg :: seg :: prev) else
    (insertFromTail newseg prev).map (seg :: ·)

def ikcpParseData (kcp : Ikcpcb) (newseg : Segment) : Ikcpcb :=
  if 0 ≤ itimediff newseg.sn (kcp.rcvNxt + kcp.rcvWnd) ∨ itimediff newseg.sn kcp.rcvNxt < 0 then kcp
  else
    let kcp :=
      match insertFromTail newseg kcp.rcvBuf.reverse with
      | some tail => { kcp with rcvBuf := tail.reverse, nrcvBuf := kcp.nrcvBuf + 1 }
      | none => kcp
    moveAvailable kcp.rcvBuf kcp

/-! ## The lower level -/

/-- The locals of the loop of `ikcp_input`: `flag`, `maxack` and `latest_ts`. -/
structure AckMark where
  flag : Bool := false
  maxack : UInt32 := 0
  latestTs : UInt32 := 0
  deriving DecidableEq, Repr

def AckMark.add (mark : AckMark) (sn ts : UInt32) : AckMark :=
  if mark.flag = false then ⟨true, sn, ts⟩ else
  if 0 < itimediff sn mark.maxack ∧ 0 < itimediff ts mark.latestTs then ⟨true, sn, ts⟩ else mark

/-- What the loop of `ikcp_input` does with a segment whose header was accepted. -/
def inputSegment (kcp : Ikcpcb) (mark : AckMark) (h : Header) (data : List UInt8) :
    Ikcpcb × AckMark :=
  let kcp := ikcpShrinkBuf (ikcpParseUna { kcp with rmtWnd := h.wnd.toUInt32 } h.una)
  if h.cmd = IKCP_CMD_ACK then
    let kcp :=
      if 0 ≤ itimediff kcp.current h.ts then
        ikcpUpdateAck kcp (Int32.ofInt (itimediff kcp.current h.ts))
      else kcp
    (ikcpShrinkBuf (ikcpParseAck kcp h.sn), mark.add h.sn h.ts)
  else if h.cmd = IKCP_CMD_PUSH then
    if itimediff h.sn (kcp.rcvNxt + kcp.rcvWnd) < 0 then
      let kcp := ikcpAckPush kcp h.sn h.ts
      if 0 ≤ itimediff h.sn kcp.rcvNxt then
        let seg : Segment := {
          conv := h.conv
          cmd := h.cmd.toUInt32
          frg := h.frg.toUInt32
          wnd := h.wnd.toUInt32
          ts := h.ts
          sn := h.sn
          una := h.una
          data := data }
        (ikcpParseData kcp seg, mark)
      else (kcp, mark)
    else (kcp, mark)
  else if h.cmd = IKCP_CMD_WASK then ({ kcp with probe := kcp.probe ||| IKCP_ASK_TELL }, mark)
  else (kcp, mark)

/-- The loop of `ikcp_input`. Each round takes at least a header off `data`, whose length is fuel
enough. -/
def ikcpInputLoop : Nat → Ikcpcb → AckMark → List UInt8 → Int × Ikcpcb × AckMark
  | 0, kcp, mark, _ => (0, kcp, mark)
  | fuel + 1, kcp, mark, data =>
    if data.length < IKCP_OVERHEAD.toNat then (0, kcp, mark) else
    let (h, data) := decodeHeader data
    if h.conv ≠ kcp.conv then (-1, kcp, mark) else
    if data.length < h.len.toNat ∨ h.len.toInt32 < 0 then (-2, kcp, mark) else
    if h.cmd ≠ IKCP_CMD_PUSH ∧ h.cmd ≠ IKCP_CMD_ACK ∧ h.cmd ≠ IKCP_CMD_WASK ∧
        h.cmd ≠ IKCP_CMD_WINS then
      (-3, kcp, mark)
    else
      let (kcp, mark) := inputSegment kcp mark h (data.take h.len.toNat)
      ikcpInputLoop fuel kcp mark (data.drop h.len.toNat)

/-- The congestion window with one more segment acknowledged. -/
def stepCwnd (kcp : Ikcpcb) : Ikcpcb :=
  if kcp.cwnd < kcp.ssthresh then { kcp with cwnd := kcp.cwnd + 1, incr := kcp.incr + kcp.mss }
  else
    let mss := kcp.mss
    let incr := if kcp.incr < mss then mss else kcp.incr
    let incr := incr + ((mss * mss) / incr + mss / 16)
    let cwnd :=
      if (kcp.cwnd + 1) * mss ≤ incr then (incr + mss - 1) / (if 0 < mss then mss else 1)
      else kcp.cwnd
    { kcp with cwnd := cwnd, incr := incr }

/-- The end of `ikcp_input`: the congestion window after new acknowledgements. -/
def growCwnd (kcp : Ikcpcb) (prevUna : UInt32) : Ikcpcb :=
  if 0 < itimediff kcp.sndUna prevUna ∧ kcp.cwnd < kcp.rmtWnd then
    let kcp := stepCwnd kcp
    if kcp.rmtWnd < kcp.cwnd then { kcp with cwnd := kcp.rmtWnd, incr := kcp.rmtWnd * kcp.mss }
    else kcp
  else kcp

def ikcpInput (kcp : Ikcpcb) (data : List UInt8) : Int × Ikcpcb :=
  if data.length < IKCP_OVERHEAD.toNat then (-1, kcp) else
  let (ret, kcp', mark) := ikcpInputLoop data.length kcp {} data
  if ret ≠ 0 then (ret, kcp') else
  let kcp' := if mark.flag then ikcpParseFastack kcp' mark.maxack mark.latestTs else kcp'
  (0, growCwnd kcp' kcp.sndUna)

/-! ## The wire -/

def ikcpWndUnused (kcp : Ikcpcb) : UInt32 :=
  if kcp.nrcvQue < kcp.rcvWnd then kcp.rcvWnd - kcp.nrcvQue else 0

/-- What is in the flush buffer up to `ptr`, and the datagrams put out. -/
structure Output where
  buffer : List UInt8 := []
  sent : List (List UInt8) := []
  deriving DecidableEq, Repr

namespace Output

def flush (o : Output) : Output :=
  if o.buffer = [] then o else ⟨[], o.sent ++ [o.buffer]⟩

/-- The buffer is put out when `need` more bytes would not fit into a datagram. -/
def reserve (o : Output) (mtu : UInt32) (need : Nat) : Output :=
  if mtu.toNat < o.buffer.length + need then o.flush else o

/-- Bytes are written to the buffer; `none` behind its end. -/
def put (o : Output) (size : UInt32) (bytes : List UInt8) : Option Output :=
  if o.buffer.length + bytes.length ≤ size.toNat then some { o with buffer := o.buffer ++ bytes }
  else none

def segment (o : Output) (kcp : Ikcpcb) (seg : Segment) : Option Output :=
  (o.reserve kcp.mtu (24 + seg.data.length)).put kcp.bufferSize (ikcpEncodeSeg seg ++ seg.data)

end Output

/-- The loop of `ikcp_flush` over `acklist`; `seg` keeps the last pair. -/
def flushAcks (kcp : Ikcpcb) :
    List (UInt32 × UInt32) → Segment → Output → Option (Segment × Output)
  | [], seg, o => some (seg, o)
  | (sn, ts) :: rest, seg, o => do
    let seg := { seg with sn := sn, ts := ts }
    let o ← o.segment kcp seg
    flushAcks kcp rest seg o

/-- The probe timer of `ikcp_flush`. -/
def updateProbe (kcp : Ikcpcb) : Ikcpcb :=
  if kcp.rmtWnd = 0 then
    if kcp.probeWait = 0 then
      { kcp with probeWait := IKCP_PROBE_INIT, tsProbe := kcp.current + IKCP_PROBE_INIT }
    else if 0 ≤ itimediff kcp.current kcp.tsProbe then
      let wait := if kcp.probeWait < IKCP_PROBE_INIT then IKCP_PROBE_INIT else kcp.probeWait
      let wait := wait + wait / 2
      let wait := if IKCP_PROBE_LIMIT < wait then IKCP_PROBE_LIMIT else wait
      { kcp with
        probeWait := wait
        tsProbe := kcp.current + wait
        probe := kcp.probe ||| IKCP_ASK_SEND }
    else kcp
  else { kcp with tsProbe := 0, probeWait := 0 }

/-- A window probing command of `ikcp_flush`, when `ask` is set in `probe`. -/
def flushProbe (kcp : Ikcpcb) (ask : UInt32) (cmd : UInt8) (seg : Segment) (o : Output) :
    Option (Segment × Output) :=
  if kcp.probe &&& ask ≠ 0 then do
    let seg := { seg with cmd := cmd.toUInt32 }
    let o ← o.segment kcp seg
    some (seg, o)
  else some (seg, o)

/-- The header of a segment that gets the number `snd_nxt`. -/
def stampSegment (kcp : Ikcpcb) (wnd : UInt32) (newseg : Segment) : Segment :=
  { newseg with
    conv := kcp.conv
    cmd := IKCP_CMD_PUSH.toUInt32
    wnd := wnd
    ts := kcp.current
    sn := kcp.sndNxt
    una := kcp.rcvNxt
    resendts := kcp.current
    rto := kcp.rxRto.toUInt32
    fastack := 0
    xmit := 0 }

/-- The loop of `ikcp_flush` that moves data from `snd_queue` to `snd_buf`. -/
def moveToSndBuf (cwnd wnd : UInt32) : List Segment → Ikcpcb → Ikcpcb
  | [], kcp => kcp
  | newseg :: rest, kcp =>
    if itimediff kcp.sndNxt (kcp.sndUna + cwnd) < 0 then
      moveToSndBuf cwnd wnd rest { kcp with
        sndQueue := rest
        sndBuf := kcp.sndBuf ++ [stampSegment kcp wnd newseg]
        nsndQue := kcp.nsndQue - 1
        nsndBuf := kcp.nsndBuf + 1
        sndNxt := kcp.sndNxt + 1 }
    else kcp

/-- The locals of the last loop of `ikcp_flush`, with `xmit` and `state`. -/
structure FlushMark where
  change : Nat := 0
  lost : Bool := false
  xmit : UInt32
  state : UInt32
  deriving DecidableEq, Repr

/-- Whether a segment is to be sent, and its timers then. -/
def resendSegment (kcp : Ikcpcb) (resent rtomin : UInt32) (seg : Segment) (m : FlushMark) :
    Bool × Segment × FlushMark :=
  if seg.xmit = 0 then
    let rto := kcp.rxRto.toUInt32
    (true, { seg with xmit := seg.xmit + 1, rto := rto, resendts := kcp.current + rto + rtomin }, m)
  else if 0 ≤ itimediff kcp.current seg.resendts then
    let rto :=
      if kcp.nodelay = 0 then seg.rto + imax seg.rto kcp.rxRto.toUInt32 else
      let step := if kcp.nodelay < 2 then seg.rto.toInt32 else kcp.rxRto
      seg.rto + (step / 2).toUInt32
    (true, { seg with xmit := seg.xmit + 1, rto := rto, resendts := kcp.current + rto },
      { m with xmit := m.xmit + 1, lost := true })
  else if resent ≤ seg.fastack then
    if seg.xmit.toInt32 ≤ kcp.fastlimit ∨ kcp.fastlimit ≤ 0 then
      (true, { seg with xmit := seg.xmit + 1, fastack := 0, resendts := kcp.current + seg.rto },
        { m with change := m.change + 1 })
    else (false, seg, m)
  else (false, seg, m)

/-- The last loop of `ikcp_flush`, over `snd_buf`. -/
def flushSegments (kcp : Ikcpcb) (wnd resent rtomin : UInt32) :
    List Segment → FlushMark → Output → Option (List Segment × FlushMark × Output)
  | [], m, o => some ([], m, o)
  | seg :: rest, m, o =>
    match resendSegment kcp resent rtomin seg m with
    | (false, seg, m) => do
      let (segs, m, o) ← flushSegments kcp wnd resent rtomin rest m o
      some (seg :: segs, m, o)
    | (true, seg, m) => do
      let seg := { seg with ts := kcp.current, wnd := wnd, una := kcp.rcvNxt }
      let o ← o.segment kcp seg
      let m := if kcp.deadLink ≤ seg.xmit then { m with state := -1 } else m
      let (segs, m, o) ← flushSegments kcp wnd resent rtomin rest m o
      some (seg :: segs, m, o)

/-- `ssthresh` and the congestion window after segments that were resent early. -/
def shrinkOnChange (kcp : Ikcpcb) (resent : UInt32) (m : FlushMark) : Ikcpcb :=
  if m.change ≠ 0 then
    let half := (kcp.sndNxt - kcp.sndUna) / 2
    let ssthresh := if half < IKCP_THRESH_MIN then IKCP_THRESH_MIN else half
    { kcp with
      ssthresh := ssthresh
      cwnd := ssthresh + resent
      incr := (ssthresh + resent) * kcp.mss }
  else kcp

/-- The same after a loss. -/
def shrinkOnLoss (kcp : Ikcpcb) (cwnd : UInt32) (m : FlushMark) : Ikcpcb :=
  if m.lost then
    let half := cwnd / 2
    { kcp with
      ssthresh := if half < IKCP_THRESH_MIN then IKCP_THRESH_MIN else half
      cwnd := 1
      incr := kcp.mss }
  else kcp

/-- The end of `ikcp_flush`. -/
def updateCwnd (kcp : Ikcpcb) (cwnd resent : UInt32) (m : FlushMark) : Ikcpcb :=
  let kcp := shrinkOnLoss (shrinkOnChange kcp resent m) cwnd m
  if kcp.cwnd < 1 then { kcp with cwnd := 1, incr := kcp.mss } else kcp

/-- The congestion window of a flush. -/
def flushCwnd (kcp : Ikcpcb) : UInt32 :=
  let cwnd := imin kcp.sndWnd kcp.rmtWnd
  if kcp.nocwnd = 0 then imin kcp.cwnd cwnd else cwnd

/-- The first part of `ikcp_flush`: acknowledgements and window probes. -/
def flushControl (kcp : Ikcpcb) : Option (Ikcpcb × Output) := do
  let seg : Segment := {
    conv := kcp.conv
    cmd := IKCP_CMD_ACK.toUInt32
    wnd := ikcpWndUnused kcp
    una := kcp.rcvNxt }
  let (seg, o) ← flushAcks kcp kcp.acklist seg {}
  let kcp := updateProbe { kcp with acklist := [] }
  let (seg, o) ← flushProbe kcp IKCP_ASK_SEND IKCP_CMD_WASK seg o
  let (_, o) ← flushProbe kcp IKCP_ASK_TELL IKCP_CMD_WINS seg o
  some ({ kcp with probe := 0 }, o)

/-- `ikcp_flush`: the control block after it and the datagrams put out. -/
def ikcpFlush (kcp : Ikcpcb) : Option (Ikcpcb × List (List UInt8)) :=
  if kcp.updated = 0 then some (kcp, []) else do
  let wnd := ikcpWndUnused kcp
  let (kcp, o) ← flushControl kcp
  let cwnd := flushCwnd kcp
  let kcp := moveToSndBuf cwnd wnd kcp.sndQueue kcp
  let resent := if 0 < kcp.fastresend then kcp.fastresend.toUInt32 else 0xffffffff
  let rtomin := if kcp.nodelay = 0 then (kcp.rxRto >>> 3).toUInt32 else 0
  let (segs, m, o) ←
    flushSegments kcp wnd resent rtomin kcp.sndBuf { xmit := kcp.xmit, state := kcp.state } o
  let kcp := { kcp with sndBuf := segs, xmit := m.xmit, state := m.state }
  some (updateCwnd kcp cwnd resent m, o.flush.sent)

def ikcpUpdate (kcp : Ikcpcb) (current : UInt32) : Option (Ikcpcb × List (List UInt8)) :=
  let kcp := { kcp with current := current }
  let kcp := if kcp.updated = 0 then { kcp with updated := 1, tsFlush := kcp.current } else kcp
  let slap := itimediff kcp.current kcp.tsFlush
  let (kcp, slap) :=
    if 10000 ≤ slap ∨ slap < -10000 then ({ kcp with tsFlush := kcp.current }, 0) else (kcp, slap)
  if 0 ≤ slap then
    let tsFlush := kcp.tsFlush + kcp.interval
    let tsFlush := if 0 ≤ itimediff kcp.current tsFlush then kcp.current + kcp.interval else tsFlush
    ikcpFlush { kcp with tsFlush := tsFlush }
  else some (kcp, [])

/-! ## The parts of a control block -/

/-- What is set up before data flows. -/
structure Config where
  conv : UInt32
  mtu : UInt32
  mss : UInt32
  bufferSize : UInt32
  sndWnd : UInt32
  rcvWnd : UInt32
  stream : Int32

structure SendSide where
  sndNxt : UInt32
  sndQueue : List Segment
  sndBuf : List Segment
  nsndQue : UInt32
  nsndBuf : UInt32

structure RecvSide where
  rcvNxt : UInt32
  rcvQueue : List Segment
  rcvBuf : List Segment
  nrcvQue : UInt32
  nrcvBuf : UInt32

namespace Ikcpcb

def config (kcp : Ikcpcb) : Config :=
  ⟨kcp.conv, kcp.mtu, kcp.mss, kcp.bufferSize, kcp.sndWnd, kcp.rcvWnd, kcp.stream⟩

def sendSide (kcp : Ikcpcb) : SendSide :=
  ⟨kcp.sndNxt, kcp.sndQueue, kcp.sndBuf, kcp.nsndQue, kcp.nsndBuf⟩

def recvSide (kcp : Ikcpcb) : RecvSide :=
  ⟨kcp.rcvNxt, kcp.rcvQueue, kcp.rcvBuf, kcp.nrcvQue, kcp.nrcvBuf⟩

end Ikcpcb

/-- Timers, windows and the like may differ. -/
structure SameParts (kcp kcp' : Ikcpcb) : Prop where
  config : kcp'.config = kcp.config
  sendSide : kcp'.sendSide = kcp.sendSide
  sndUna : kcp'.sndUna = kcp.sndUna
  recvSide : kcp'.recvSide = kcp.recvSide
  acklist : kcp'.acklist = kcp.acklist

namespace SameParts

variable {kcp kcp' kcp'' : Ikcpcb}

theorem refl (kcp : Ikcpcb) : SameParts kcp kcp := ⟨rfl, rfl, rfl, rfl, rfl⟩

theorem trans (h : SameParts kcp kcp') (h' : SameParts kcp' kcp'') : SameParts kcp kcp'' :=
  ⟨h'.1.trans h.1, h'.2.trans h.2, h'.3.trans h.3, h'.4.trans h.4, h'.5.trans h.5⟩

theorem updateAck (kcp : Ikcpcb) (rtt : Int32) : SameParts kcp (ikcpUpdateAck kcp rtt) :=
  ⟨rfl, rfl, rfl, rfl, rfl⟩

theorem stepCwnd (kcp : Ikcpcb) : SameParts kcp (stepCwnd kcp) := by
  unfold Kcp.stepCwnd
  split_ifs <;> exact ⟨rfl, rfl, rfl, rfl, rfl⟩

theorem growCwnd (kcp : Ikcpcb) (prevUna : UInt32) : SameParts kcp (growCwnd kcp prevUna) := by
  unfold Kcp.growCwnd
  dsimp only
  split_ifs
  · exact (stepCwnd kcp).trans ⟨rfl, rfl, rfl, rfl, rfl⟩
  · exact stepCwnd kcp
  · exact refl kcp

theorem probe (kcp : Ikcpcb) (wait ts ask : UInt32) :
    SameParts kcp { kcp with probeWait := wait, tsProbe := ts, probe := ask } :=
  ⟨rfl, rfl, rfl, rfl, rfl⟩

theorem updateProbe (kcp : Ikcpcb) : SameParts kcp (updateProbe kcp) := by
  unfold Kcp.updateProbe
  dsimp only
  split_ifs <;> exact probe kcp _ _ _

theorem shrinkOnChange (kcp : Ikcpcb) (resent : UInt32) (m : FlushMark) :
    SameParts kcp (shrinkOnChange kcp resent m) := by
  unfold Kcp.shrinkOnChange
  split_ifs <;> exact ⟨rfl, rfl, rfl, rfl, rfl⟩

theorem shrinkOnLoss (kcp : Ikcpcb) (cwnd : UInt32) (m : FlushMark) :
    SameParts kcp (shrinkOnLoss kcp cwnd m) := by
  unfold Kcp.shrinkOnLoss
  split_ifs <;> exact ⟨rfl, rfl, rfl, rfl, rfl⟩

theorem updateCwnd (kcp : Ikcpcb) (cwnd resent : UInt32) (m : FlushMark) :
    SameParts kcp (updateCwnd kcp cwnd resent m) := by
  have h := (shrinkOnChange kcp resent m).trans (shrinkOnLoss _ cwnd m)
  unfold Kcp.updateCwnd
  dsimp only
  split_ifs
  · exact h.trans ⟨rfl, rfl, rfl, rfl, rfl⟩
  · exact h

end SameParts

/-- `snd_una` is the number of the first segment of `snd_buf`, or the next one when there is none. -/
def Ikcpcb.UnaOk (kcp : Ikcpcb) : Prop :=
  kcp.sndUna = (kcp.sndBuf.head?.map Segment.sn).getD kcp.sndNxt

theorem Ikcpcb.UnaOk.congr {kcp kcp' : Ikcpcb} (h : kcp.UnaOk) (hs : kcp'.sendSide = kcp.sendSide)
    (hu : kcp'.sndUna = kcp.sndUna) : kcp'.UnaOk := by
  have hbuf : kcp'.sndBuf = kcp.sndBuf := congrArg SendSide.sndBuf hs
  have hnxt : kcp'.sndNxt = kcp.sndNxt := congrArg SendSide.sndNxt hs
  unfold Ikcpcb.UnaOk
  rw [hu, hbuf, hnxt]
  exact h

/-- `ikcp_shrink_buf` sets `snd_una` and nothing else. -/
theorem ikcpShrinkBuf_spec (kcp : Ikcpcb) :
    (ikcpShrinkBuf kcp).UnaOk ∧ (ikcpShrinkBuf kcp).config = kcp.config ∧
      (ikcpShrinkBuf kcp).sendSide = kcp.sendSide ∧ (ikcpShrinkBuf kcp).recvSide = kcp.recvSide ∧
      (ikcpShrinkBuf kcp).acklist = kcp.acklist := by
  unfold ikcpShrinkBuf
  split
  all_goals
    rename_i hbuf
    refine ⟨?_, rfl, rfl, rfl, rfl⟩
    show _ = (kcp.sndBuf.head?.map Segment.sn).getD kcp.sndNxt
    rw [hbuf]
    rfl

end FwkMlib.Kcp
