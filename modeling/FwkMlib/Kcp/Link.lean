import FwkMlib.Kcp.Flow
import FwkMlib.Lib.Trace

/-!
# Two parties over a bad network

Two control blocks with the same `conv` talk over a network that loses, repeats and reorders datagrams:
everything that was ever put out may be delivered at any time, any number of times, or never. The upper
levels and the clocks do what they like.

* `Link.heard_isPrefix` : what one upper level hears is the beginning of what the other one said, message
  by message, or byte by byte in streaming mode;
* `Link.datagrams_ok` : no flush ever overruns its buffer, no datagram is longer than the mtu, and none is
  refused by the other party;
* `Link.nothing_lost` : every piece that got a number waits at the sender until it is at the receiver;
* `Link.queues_ok` : the queues are counted right, and the receiver's ones keep to their window.
-/

namespace FwkMlib.Kcp
open FwkMlib.Lib

/-! ## Setting up -/

/-- A control block that was created and set up, before data flows. -/
inductive Configured (conv : UInt32) : Ikcpcb → Prop
  | create : Configured conv (ikcpCreate conv)
  | setmtu {kcp : Ikcpcb} (h : Configured conv kcp) (mtu : Int32)
      (hmtu : (mtu.toUInt32.toNat + 24) * 3 < 2 ^ 32) : Configured conv (ikcpSetmtu kcp mtu).2
  | interval {kcp : Ikcpcb} (h : Configured conv kcp) (interval : Int32) :
      Configured conv (ikcpInterval kcp interval)
  | nodelay {kcp : Ikcpcb} (h : Configured conv kcp) (nodelay interval resend nc : Int32) :
      Configured conv (ikcpNodelay kcp nodelay interval resend nc)
  | wndsize {kcp : Ikcpcb} (h : Configured conv kcp) (sndwnd rcvwnd : Int32) :
      Configured conv (ikcpWndsize kcp sndwnd rcvwnd)
  | stream {kcp : Ikcpcb} (h : Configured conv kcp) (stream : Int32) :
      Configured conv { kcp with stream := stream }

theorem toNat_toUInt32_of_nonneg {n : Int32} (h : 0 ≤ n.toInt) :
    (n.toUInt32.toNat : Int) = n.toInt ∧ n.toUInt32.toNat < 2 ^ 31 := by
  have hint : n.toInt = if 2 * n.toUInt32.toNat < 2 ^ 32 then (n.toUInt32.toNat : Int)
      else n.toUInt32.toNat - (2 ^ 32 : Nat) := BitVec.toInt_eq_toNat_cond _
  have hlt : n.toUInt32.toNat < 2 ^ 32 := n.toUInt32.toNat_lt
  split_ifs at hint <;> omega

/-- No data has flowed. -/
structure Fresh (conv : UInt32) (kcp : Ikcpcb) : Prop where
  config : kcp.config.Ok conv
  sendSide : kcp.sendSide = ⟨0, [], [], 0, 0⟩
  sndUna : kcp.sndUna = 0
  recvSide : kcp.recvSide = ⟨0, [], [], 0, 0⟩
  acklist : kcp.acklist = []

theorem Configured.fresh {conv : UInt32} {kcp : Ikcpcb} (h : Configured conv kcp) : Fresh conv kcp := by
  induction h with
  | create =>
    have hle : IKCP_MTU_DEF ≤ (IKCP_MTU_DEF + IKCP_OVERHEAD) * 3 := by decide
    exact ⟨⟨rfl, Nat.le_of_ble_eq_true rfl, rfl, hle, Nat.le_of_ble_eq_true rfl,
      Nat.le_of_ble_eq_true rfl, Nat.le_of_ble_eq_true rfl, Nat.le_of_ble_eq_true rfl,
      Nat.le_of_ble_eq_true rfl⟩, rfl, rfl, rfl, rfl⟩
  | @setmtu kcp h mtu hmtu ih =>
    unfold ikcpSetmtu
    split_ifs with hsmall
    · exact ih
    · have hge : 50 ≤ mtu.toInt := by
        have := mt Or.inl hsmall
        rw [Int32.lt_iff_toInt_lt] at this
        exact Int.not_lt.1 this
      obtain ⟨heq, hlt⟩ := toNat_toUInt32_of_nonneg (n := mtu) (by omega)
      have hoh : IKCP_OVERHEAD.toNat = 24 := rfl
      have hmss : (mtu.toUInt32 - IKCP_OVERHEAD).toNat = mtu.toUInt32.toNat - 24 := by
        rw [UInt32.toNat_sub_of_le _ _ (by rw [UInt32.le_iff_toNat_le]; omega), hoh]
      have hsize : ((mtu.toUInt32 + IKCP_OVERHEAD) * 3).toNat = (mtu.toUInt32.toNat + 24) * 3 := by
        rw [UInt32.toNat_mul, UInt32.toNat_add, hoh]
        show (mtu.toUInt32.toNat + 24) % 2 ^ 32 * 3 % 2 ^ 32 = _
        omega
      refine ⟨⟨ih.config.conv, ?_, ?_, ?_, hlt, ih.config.sndWnd_pos, ih.config.sndWnd_lt,
        ih.config.rcvWnd_lt, ih.config.rcvWnd_ge⟩,
        ih.sendSide, ih.sndUna, ih.recvSide, ih.acklist⟩
      · show 0 < (mtu.toUInt32 - IKCP_OVERHEAD).toNat
        omega
      · show mtu.toUInt32.toNat = (mtu.toUInt32 - IKCP_OVERHEAD).toNat + 24
        omega
      · show mtu.toUInt32 ≤ (mtu.toUInt32 + IKCP_OVERHEAD) * 3
        rw [UInt32.le_iff_toNat_le]
        omega
  | interval h interval ih => exact ⟨ih.config, ih.sendSide, ih.sndUna, ih.recvSide, ih.acklist⟩
  | nodelay h nodelay interval resend nc ih => exact ⟨ih.config, ih.sendSide, ih.sndUna, ih.recvSide, ih.acklist⟩
  | @wndsize kcp h sndwnd rcvwnd ih =>
    obtain ⟨c₁, c₂, c₃, c₄, c₅, c₆, c₇, c₈, c₉⟩ := ih.config
    refine ⟨⟨c₁, c₂, c₃, c₄, c₅, ?_, ?_, ?_, ?_⟩, ih.sendSide, ih.sndUna, ih.recvSide, ih.acklist⟩
    all_goals
      unfold ikcpWndsize Ikcpcb.config imax
      dsimp only
    · split_ifs with hpos
      · rw [Int32.lt_iff_toInt_lt] at hpos
        have hpos' : 0 < sndwnd.toInt := hpos
        have := (toNat_toUInt32_of_nonneg (n := sndwnd) (by omega)).1
        omega
      · exact c₆
    · split_ifs with hpos
      · rw [Int32.lt_iff_toInt_lt] at hpos
        exact (toNat_toUInt32_of_nonneg (Int.le_of_lt hpos)).2
      · exact c₇
    · split_ifs with hpos
      · rw [Int32.lt_iff_toInt_lt] at hpos
        exact (toNat_toUInt32_of_nonneg (Int.le_of_lt hpos)).2
      · decide
      · exact c₈
    · split_ifs with hpos hle
      · rw [UInt32.le_iff_toNat_le] at hle
        exact hle
      · decide
      · exact c₉
  | stream h stream ih => exact ⟨⟨ih.config.1, ih.config.2, ih.config.3, ih.config.4, ih.config.5,
      ih.config.6, ih.config.7, ih.config.8, ih.config.9⟩, ih.sendSide, ih.sndUna, ih.recvSide, ih.acklist⟩

/-! ## The system -/

/-- The control blocks of the two parties, and the datagrams that each has put out. -/
structure Link where
  kcp : Bool → Ikcpcb
  net : Bool → List (List UInt8)

/-- What the upper levels see. -/
inductive Event
  | said (i : Bool) (data : List UInt8)
  | heard (i : Bool) (data : List UInt8)
  deriving DecidableEq

/-- What the upper level of a party said. -/
def said (i : Bool) (tr : List Event) : List (List UInt8) :=
  tr.filterMap fun
    | .said j data => if j = i then some data else none
    | .heard _ _ => none

/-- What the upper level of a party heard. -/
def heard (i : Bool) (tr : List Event) : List (List UInt8) :=
  tr.filterMap fun
    | .said _ _ => none
    | .heard j data => if j = i then some data else none

namespace Link

/-- A party has a new control block and has put out some datagrams. -/
def act (w : Link) (i : Bool) (kcp : Ikcpcb) (out : List (List UInt8)) : Link where
  kcp := Function.update w.kcp i kcp
  net := Function.update w.net i (w.net i ++ out)

/-- One call of one party. A datagram that was put out once may be delivered whenever the network wants. -/
inductive Step (w : Link) : List Event → Link → Prop
  | send (i : Bool) (buffer : List UInt8) {len : Int} (hlen : len ≤ buffer.length) :
      Step w
        (if 0 ≤ (ikcpSend (w.kcp i) buffer len).1 then
          [.said i (buffer.take (ikcpSend (w.kcp i) buffer len).1.toNat)]
        else [])
        (w.act i (ikcpSend (w.kcp i) buffer len).2 [])
  | recv (i : Bool) (len : Int) :
      Step w
        (if 0 ≤ (ikcpRecv (w.kcp i) len).1 ∧ 0 ≤ len then [.heard i (ikcpRecv (w.kcp i) len).2.1]
        else [])
        (w.act i (ikcpRecv (w.kcp i) len).2.2 [])
  | update (i : Bool) (current : UInt32) {kcp : Ikcpcb} {out : List (List UInt8)}
      (h : ikcpUpdate (w.kcp i) current = some (kcp, out)) : Step w [] (w.act i kcp out)
  | flush (i : Bool) {kcp : Ikcpcb} {out : List (List UInt8)}
      (h : ikcpFlush (w.kcp i) = some (kcp, out)) : Step w [] (w.act i kcp out)
  | input (i : Bool) {data : List UInt8} (h : data ∈ w.net (!i)) :
      Step w [] (w.act i (ikcpInput (w.kcp i) data).2 [])
  | nodelay (i : Bool) (nodelay interval resend nc : Int32) :
      Step w [] (w.act i (ikcpNodelay (w.kcp i) nodelay interval resend nc) [])

/-- Nothing was said yet. -/
structure Start (conv : UInt32) (w : Link) : Prop where
  configured : ∀ i, Configured conv (w.kcp i)
  net : ∀ i, w.net i = []

/-- A datagram of packets. -/
def Genuine (mtu : Nat) (conv : UInt32) (hist : List (Piece UInt8)) (P : Nat → Prop)
    (data : List UInt8) : Prop :=
  ∃ segs, data = encodeAll segs ∧ Datagram mtu segs ∧ ∀ seg ∈ segs, Packet conv hist P seg

/-- What holds after a run that showed `tr`, from control blocks with the configurations `c`. -/
structure Inv (conv : UInt32) (c : Bool → Config) (tr : List Event)
    (hist : Bool → List (Piece UInt8)) (gs : Bool → List (List (Piece UInt8))) (w : Link) : Prop where
  config : ∀ i, (w.kcp i).config = c i
  ok : ∀ i, (c i).Ok conv
  flow : ∀ i, Flow (w.kcp i) (w.kcp !i) (said i tr) (heard (!i) tr) (hist i) (gs i)
  net : ∀ i, ∀ data ∈ w.net i,
    Genuine (c i).mtu.toNat conv (hist i) (w.kcp i).recvSide.Has data

variable {conv : UInt32} {c : Bool → Config} {tr tr' : List Event}
  {hist : Bool → List (Piece UInt8)} {gs : Bool → List (List (Piece UInt8))} {w w' : Link}

theorem Start.inv (h : Start conv w) :
    Inv conv (fun i => (w.kcp i).config) [] (fun _ => []) (fun _ => []) w where
  config _ := rfl
  ok i := (h.configured i).fresh.config
  flow i := by
    have hs := (h.configured i).fresh
    have hr := (h.configured !i).fresh
    obtain ⟨s₁, s₂, s₃, s₄, s₅⟩ := SendSide.mk.inj hs.sendSide
    obtain ⟨r₁, r₂, r₃, r₄, r₅⟩ := RecvSide.mk.inj hr.recvSide
    exact {
      sndNxt := by rw [s₁]; rfl
      una := by
        unfold Ikcpcb.UnaOk
        rw [hs.sndUna, s₃, s₁]
        rfl
      cut := by
        rw [s₂]
        exact .nil _
      count := by
        rw [s₂]
        exact Nat.le_refl 0
      fit := by
        rw [s₂]
        exact nofun
      buf := by
        rw [s₃]
        exact nofun
      kept := nofun
      nsndQue := by rw [s₂, s₄]; rfl
      nsndBuf := by rw [s₃, s₅]; rfl
      joined := rfl
      recvSide := by
        rw [hr.recvSide]
        exact ⟨Nat.le_refl 0, rfl, .nil, nofun, Nat.zero_le _, rfl, rfl⟩
      settled := by
        intro seg rest hbuf
        rw [r₃] at hbuf
        exact absurd hbuf nofun
      acks := by
        rw [hr.acklist]
        exact nofun }
  net i := by
    rw [h.net i]
    exact nofun

theorem Genuine.mono {mtu : Nat} {hist : List (Piece UInt8)} {P P' : Nat → Prop} {data : List UInt8}
    (h : Genuine mtu conv hist P data) (new : List (Piece UInt8)) (hP : ∀ k, P k → P' k) :
    Genuine mtu conv (hist ++ new) P' data := by
  obtain ⟨segs, hdata, hd, hp⟩ := h
  exact ⟨segs, hdata, hd, fun seg hs => (hp seg hs).mono new hP⟩

/-- A party acts: it keeps its direction as the sender, and the other one as the receiver. -/
theorem Inv.act (h : Inv conv c tr hist gs w) (i : Bool) {kcp : Ikcpcb} {out : List (List UInt8)}
    (new : List (Piece UInt8)) (gs' : List (List (Piece UInt8)))
    (hc : kcp.config = (w.kcp i).config) (hhas : ∀ k, (w.kcp i).recvSide.Has k → kcp.recvSide.Has k)
    (hs : Flow kcp (w.kcp !i) (said i tr') (heard (!i) tr') (hist i ++ new) gs')
    (hr : Flow (w.kcp !i) kcp (said (!i) tr') (heard i tr') (hist !i) (gs !i))
    (hout : ∀ data ∈ out, Genuine (c i).mtu.toNat conv (hist i ++ new) kcp.recvSide.Has data) :
    Inv conv c tr' (Function.update hist i (hist i ++ new)) (Function.update gs i gs')
      (w.act i kcp out) := by
  have hne : (!i) ≠ i := Bool.not_ne_self i
  have hself : (w.act i kcp out).kcp i = kcp := Function.update_self ..
  have hother : (w.act i kcp out).kcp (!i) = w.kcp !i := Function.update_of_ne hne ..
  have hcases (P : Bool → Prop) (h₁ : P i) (h₂ : P !i) (j : Bool) : P j := by
    obtain rfl | hj := Bool.eq_or_eq_not j i
    · exact h₁
    · exact hj ▸ h₂
  refine ⟨hcases _ ?_ ?_, h.ok, hcases _ ?_ ?_, hcases _ ?_ ?_⟩
  · rw [hself, hc, h.config]
  · rw [hother, h.config]
  · rw [hself, hother, Function.update_self, Function.update_self]
    exact hs
  · rw [hother, Bool.not_not, hself, Function.update_of_ne hne, Function.update_of_ne hne]
    exact hr
  · rw [hself, Function.update_self]
    show ∀ data ∈ Function.update w.net i (w.net i ++ out) i, _
    rw [Function.update_self]
    intro data hd
    obtain hd | hd := List.mem_append.1 hd
    · exact (h.net i data hd).mono new hhas
    · exact hout data hd
  · rw [hother, Function.update_of_ne hne]
    show ∀ data ∈ Function.update w.net i (w.net i ++ out) (!i), _
    rw [Function.update_of_ne hne]
    exact h.net !i

/-! ## One lemma for each step -/

theorem said_append (i : Bool) (tr ls : List Event) : said i (tr ++ ls) = said i tr ++ said i ls :=
  List.filterMap_append

theorem heard_append (i : Bool) (tr ls : List Event) :
    heard i (tr ++ ls) = heard i tr ++ heard i ls :=
  List.filterMap_append

theorem Inv.other (h : Inv conv c tr hist gs w) (i : Bool) :
    Flow (w.kcp !i) (w.kcp i) (said (!i) tr) (heard i tr) (hist !i) (gs !i) := by
  have := h.flow !i
  rwa [Bool.not_not] at this

theorem Inv.mss_pos (h : Inv conv c tr hist gs w) (i : Bool) : 0 < (w.kcp i).mss.toNat := by
  have := (h.ok i).mss_pos
  rwa [← h.config i] at this

theorem Inv.short (h : Inv conv c tr hist gs w)
    (hshort : ∀ i, pieces (c i).mss.toNat (said i tr) < 2 ^ 31) (i : Bool) :
    pieces (w.kcp i).mss.toNat (said i tr) < 2 ^ 31 := by
  have := hshort i
  rwa [← h.config i] at this

/-- A party acts without saying anything. -/
theorem Inv.act_quiet (h : Inv conv c tr hist gs w) (i : Bool) {kcp : Ikcpcb}
    {out : List (List UInt8)} (new : List (Piece UInt8)) (hc : kcp.config = (w.kcp i).config)
    (hhas : ∀ k, (w.kcp i).recvSide.Has k → kcp.recvSide.Has k)
    (hs : Flow kcp (w.kcp !i) (said i tr') (heard (!i) tr') (hist i ++ new) (gs i))
    (hr : Flow (w.kcp !i) kcp (said (!i) tr') (heard i tr') (hist !i) (gs !i))
    (hout : ∀ data ∈ out, Genuine (c i).mtu.toNat conv (hist i ++ new) kcp.recvSide.Has data) :
    ∃ hist', Inv conv c tr' hist' gs (w.act i kcp out) := by
  have hinv := h.act i new (gs i) hc hhas hs hr hout
  rw [Function.update_eq_self] at hinv
  exact ⟨_, hinv⟩

/-- Timers and windows do not matter. -/
theorem Inv.same (h : Inv conv c tr hist gs w) (i : Bool) {kcp : Ikcpcb}
    (hp : SameParts (w.kcp i) kcp) : ∃ hist', Inv conv c tr hist' gs (w.act i kcp []) := by
  refine h.act_quiet i [] hp.config (fun k hk => hp.recvSide ▸ hk) ?_ ?_ nofun
  · rw [List.append_nil]
    exact (h.flow i).shrunk hp.config (.of_eq hp.sendSide) fun hu => hu.congr hp.sendSide hp.sndUna
  · exact (h.other i).receiver_same hp.config hp.recvSide fun p hp' => hp.acklist ▸ hp'

theorem Inv.send (h : Inv conv c tr hist gs w) (i : Bool) (buffer : List UInt8) {len : Int}
    (hlen : len ≤ buffer.length) {ls : List Event}
    (hls : ls = if 0 ≤ (ikcpSend (w.kcp i) buffer len).1 then
      [.said i (buffer.take (ikcpSend (w.kcp i) buffer len).1.toNat)] else []) :
    ∃ hist' gs', Inv conv c (tr ++ ls) hist' gs' (w.act i (ikcpSend (w.kcp i) buffer len).2 []) := by
  obtain ⟨gs', hflow, hqueued⟩ := (h.flow i).send (h.mss_pos i) buffer hlen
  have hne : i ≠ !i := (Bool.not_ne_self i).symm
  have hsaid : said i (tr ++ ls) = if 0 ≤ (ikcpSend (w.kcp i) buffer len).1 then
      said i tr ++ [buffer.take (ikcpSend (w.kcp i) buffer len).1.toNat] else said i tr := by
    rw [said_append, hls]
    split_ifs <;> simp [said]
  have hsaid' : said (!i) (tr ++ ls) = said (!i) tr := by
    rw [said_append, hls]
    split_ifs <;> simp [said, hne]
  have hheard (j : Bool) : heard j (tr ++ ls) = heard j tr := by
    rw [heard_append, hls]
    split_ifs <;> simp [heard]
  refine ⟨_, _, h.act i [] gs' hqueued.config (fun k hk => hqueued.recvSide ▸ hk) ?_ ?_ nofun⟩
  · rw [hsaid, hheard, List.append_nil]
    exact hflow
  · rw [hsaid', hheard]
    exact (h.other i).receiver_same hqueued.config hqueued.recvSide fun p hp => hqueued.acklist ▸ hp

theorem Inv.recv (h : Inv conv c tr hist gs w)
    (hshort : ∀ i, pieces (c i).mss.toNat (said i tr) < 2 ^ 31) (i : Bool) (len : Int)
    {ls : List Event} (hls : ls = if 0 ≤ (ikcpRecv (w.kcp i) len).1 ∧ 0 ≤ len then
      [.heard i (ikcpRecv (w.kcp i) len).2.1] else []) :
    ∃ hist', Inv conv c (tr ++ ls) hist' gs (w.act i (ikcpRecv (w.kcp i) len).2.2 []) := by
  obtain ⟨hflow, hadv⟩ := (h.other i).recv ((h.other i).short (h.short hshort !i)) len
  have hne : i ≠ !i := (Bool.not_ne_self i).symm
  have hsaid (j : Bool) : said j (tr ++ ls) = said j tr := by
    rw [said_append, hls]
    split_ifs <;> simp [said]
  have hheard : heard i (tr ++ ls) = if 0 ≤ (ikcpRecv (w.kcp i) len).1 ∧ 0 ≤ len then
      heard i tr ++ [(ikcpRecv (w.kcp i) len).2.1] else heard i tr := by
    rw [heard_append, hls]
    split_ifs <;> simp [heard]
  have hheard' : heard (!i) (tr ++ ls) = heard (!i) tr := by
    rw [heard_append, hls]
    split_ifs <;> simp [heard, hne]
  refine h.act_quiet i [] hadv.config hadv.has ?_ ?_ nofun
  · rw [hsaid, hheard', List.append_nil]
    exact (h.flow i).shrunk hadv.config (.of_eq hadv.sendSide) fun hu => hu.congr hadv.sendSide hadv.sndUna
  · rw [hsaid, hheard]
    exact hflow

/-- A datagram of the other party is taken whole. -/
theorem Inv.heeded (h : Inv conv c tr hist gs w)
    (hshort : ∀ i, pieces (c i).mss.toNat (said i tr) < 2 ^ 31) (i : Bool) {data : List UInt8}
    (hdata : data ∈ w.net (!i)) :
    (ikcpInput (w.kcp i) data).1 = 0 ∧
      Heeded (w.kcp !i).recvSide.Has (hist !i) ((gs !i).take (heard i tr).length).flatten (w.kcp i)
        (ikcpInput (w.kcp i) data).2 := by
  obtain ⟨segs, rfl, hd, hp⟩ := h.net (!i) data hdata
  have hsend := h.flow i
  have hrecv := h.other i
  have hwnd : (w.kcp i).rcvWnd.toNat < 2 ^ 31 := by
    have := (h.ok i).rcvWnd_lt
    rwa [← h.config i] at this
  have hconv : (w.kcp i).conv = conv := by
    have := (h.ok i).conv
    rwa [← h.config i] at this
  have hsnd : ∀ s ∈ (w.kcp i).sndBuf, s.sn.toNat < 2 ^ 31 := fun s hs =>
    (List.getElem?_eq_some_iff.1 (hsend.buf s hs).piece).1.trans (hsend.short (h.short hshort i))
  exact ikcpInput_spec hd hrecv.recvSide (hrecv.short (h.short hshort !i)) hwnd hsnd
    fun seg hs => hconv.symm ▸ hp seg hs

theorem Inv.input (h : Inv conv c tr hist gs w)
    (hshort : ∀ i, pieces (c i).mss.toNat (said i tr) < 2 ^ 31) (i : Bool) {data : List UInt8}
    (hdata : data ∈ w.net (!i)) :
    ∃ hist', Inv conv c tr hist' gs (w.act i (ikcpInput (w.kcp i) data).2 []) := by
  have hrecv := h.other i
  obtain ⟨-, hheed⟩ := h.heeded hshort i hdata
  refine h.act_quiet i [] hheed.config hheed.has ?_ ?_ nofun
  · rw [List.append_nil]
    exact (h.flow i).shrunk hheed.config hheed.sendSide hheed.una
  · exact hrecv.receiver hheed.recvSide hheed.has (hheed.settled hrecv.settled) hheed.acks

/-- A flush finds room in its buffer. -/
theorem Inv.exists_flush (h : Inv conv c tr hist gs w) (i : Bool) {kcp : Ikcpcb}
    (hp : SameParts (w.kcp i) kcp) (hup : kcp.updated ≠ 0) :
    ∃ (kcp' : Ikcpcb) (batches : List (List Segment)) (control data : List Segment),
      ikcpFlush kcp = some (kcp', batches.map encodeAll) ∧
      (∀ batch ∈ batches, Datagram kcp.mtu.toNat batch) ∧ batches.flatten = control ++ data ∧
      Flushed kcp kcp' control data := by
  have hsend : Flow kcp (w.kcp !i) (said i tr) (heard (!i) tr) (hist i) (gs i) :=
    (h.flow i).shrunk hp.config (.of_eq hp.sendSide) fun hu => hu.congr hp.sendSide hp.sndUna
  obtain ⟨hconv, hpos, hmtu, hbuf, hmtu', -, -, -, -⟩ := (hp.config.trans (h.config i)) ▸ h.ok i
  have hmss : kcp.mtu.toNat = kcp.mss.toNat + 24 := hmtu
  have hsize (seg : Segment) (hle : seg.data.length ≤ kcp.mss.toNat) : seg.size ≤ kcp.mtu.toNat := by
    unfold Segment.size
    omega
  exact ikcpFlush_spec hup (by omega) hbuf (fun seg hs => hsize seg (hsend.buf seg hs).length_le)
    fun seg hs => hsize seg (hsend.fit seg hs)

/-- What it puts out are packets. -/
theorem Inv.flushed (h : Inv conv c tr hist gs w)
    (hshort : ∀ i, pieces (c i).mss.toNat (said i tr) < 2 ^ 31) (i : Bool) {kcp kcp' : Ikcpcb}
    {batches : List (List Segment)} {control data : List Segment} (hp : SameParts (w.kcp i) kcp)
    (hbatch : ∀ batch ∈ batches, Datagram kcp.mtu.toNat batch)
    (hflat : batches.flatten = control ++ data) (hf : Flushed kcp kcp' control data) :
    ∃ hist', Inv conv c tr hist' gs (w.act i kcp' (batches.map encodeAll)) ∧
      ∀ seg ∈ control ++ data, Packet conv (hist' i) kcp.recvSide.Has seg := by
  have hsend : Flow kcp (w.kcp !i) (said i tr) (heard (!i) tr) (hist i) (gs i) :=
    (h.flow i).shrunk hp.config (.of_eq hp.sendSide) fun hu => hu.congr hp.sendSide hp.sndUna
  have hrecv : Flow (w.kcp !i) kcp (said (!i) tr) (heard i tr) (hist !i) (gs !i) :=
    (h.other i).receiver_same hp.config hp.recvSide fun p hp' => hp.acklist ▸ hp'
  have hc : kcp.config = c i := hp.config.trans (h.config i)
  obtain ⟨hconv, hpos, hmtu, hbuf, hmtu', -, -, -, -⟩ := hc ▸ h.ok i
  have hmss : kcp.mtu.toNat = kcp.mss.toNat + 24 := hmtu
  have hlt : kcp.mtu.toNat < 2 ^ 31 := hmtu'
  have hcmtu : (c i).mtu = kcp.mtu := congrArg Config.mtu hc.symm
  have hshort' : pieces kcp.mss.toNat (said i tr) < 2 ^ 31 := by
    have := hshort i
    rwa [← hc] at this
  obtain ⟨new, hflow⟩ := hsend.flush hshort' hf
  have hnxt : kcp.rcvNxt.toNat < 2 ^ 31 :=
    hrecv.recvSide.rcvNxt_le.trans_lt (hrecv.short (h.short hshort !i))
  have hpackets := hflow.packets hf (by omega) hnxt hrecv.acks
  rw [show kcp.conv = conv from hconv] at hpackets
  have hout : ∀ d ∈ batches.map encodeAll, Genuine (c i).mtu.toNat conv (hist i ++ new)
      kcp'.recvSide.Has d := by
    intro d hd
    obtain ⟨batch, hb, rfl⟩ := List.mem_map.1 hd
    refine ⟨batch, rfl, hcmtu ▸ hbatch batch hb, fun seg hs => ?_⟩
    rw [hf.recvSide]
    exact hpackets seg (hflat ▸ List.mem_flatten.2 ⟨batch, hb, hs⟩)
  have hhas : ∀ k, (w.kcp i).recvSide.Has k → kcp'.recvSide.Has k := fun k hk => by
    rw [hf.recvSide, hp.recvSide]
    exact hk
  have hinv := h.act i new (gs i) (hf.config.trans hp.config) hhas hflow
    (hrecv.receiver_same hf.config hf.recvSide fun p hp => absurd (hf.acklist ▸ hp) nofun) hout
  rw [Function.update_eq_self] at hinv
  refine ⟨_, hinv, ?_⟩
  rw [Function.update_self]
  exact hpackets

theorem Inv.flush (h : Inv conv c tr hist gs w)
    (hshort : ∀ i, pieces (c i).mss.toNat (said i tr) < 2 ^ 31) (i : Bool) {kcp : Ikcpcb}
    (hp : SameParts (w.kcp i) kcp) : ∃ kcp' out, ikcpFlush kcp = some (kcp', out) ∧
      ∃ hist', Inv conv c tr hist' gs (w.act i kcp' out) := by
  by_cases hup : kcp.updated = 0
  · refine ⟨kcp, [], ?_, h.same i hp⟩
    unfold ikcpFlush
    rw [if_pos hup]
  obtain ⟨kcp', batches, control, data, heq, hbatch, hflat, hf⟩ := h.exists_flush i hp hup
  obtain ⟨hist', hinv, -⟩ := h.flushed hshort i hp hbatch hflat hf
  exact ⟨kcp', _, heq, hist', hinv⟩

/-- The clock of a control block. -/
def tick (kcp : Ikcpcb) (current updated tsFlush : UInt32) : Ikcpcb :=
  { kcp with current := current, updated := updated, tsFlush := tsFlush }

theorem sameParts_tick (kcp : Ikcpcb) (current updated tsFlush : UInt32) :
    SameParts kcp (tick kcp current updated tsFlush) := ⟨rfl, rfl, rfl, rfl, rfl⟩

/-- An update only sets the clock, or flushes then. -/
theorem ikcpUpdate_cases (kcp : Ikcpcb) (current : UInt32) :
    ∃ updated tsFlush, updated ≠ 0 ∧
      (ikcpUpdate kcp current = some (tick kcp current updated tsFlush, []) ∨
        ikcpUpdate kcp current = ikcpFlush (tick kcp current updated tsFlush)) := by
  unfold ikcpUpdate
  dsimp only
  by_cases hup : kcp.updated = 0
  · simp only [hup, if_true]
    split_ifs
    all_goals first
      | exact ⟨1, _, by decide, .inl rfl⟩
      | exact ⟨1, _, by decide, .inr rfl⟩
  · simp only [hup, if_false]
    split_ifs
    all_goals first
      | exact ⟨kcp.updated, _, hup, .inl rfl⟩
      | exact ⟨kcp.updated, _, hup, .inr rfl⟩

theorem Inv.update (h : Inv conv c tr hist gs w)
    (hshort : ∀ i, pieces (c i).mss.toNat (said i tr) < 2 ^ 31) (i : Bool) (current : UInt32) :
    ∃ kcp out, ikcpUpdate (w.kcp i) current = some (kcp, out) ∧
      ∃ hist', Inv conv c tr hist' gs (w.act i kcp out) := by
  obtain ⟨updated, tsFlush, -, heq | heq⟩ := ikcpUpdate_cases (w.kcp i) current
  · exact ⟨_, [], heq, h.same i (sameParts_tick _ _ _ _)⟩
  · obtain ⟨kcp, out, hfl, hinv⟩ := h.flush hshort i (sameParts_tick (w.kcp i) current updated tsFlush)
    exact ⟨kcp, out, heq.trans hfl, hinv⟩

/-! ## Runs -/

/-- Every step keeps the invariant. The messages stay where nothing is said. -/
theorem Inv.step (h : Inv conv c tr hist gs w)
    (hshort : ∀ i, pieces (c i).mss.toNat (said i tr) < 2 ^ 31) {ls : List Event}
    (hs : Step w ls w') : ∃ hist' gs', Inv conv c (tr ++ ls) hist' gs' w' := by
  cases hs with
  | send i buffer hlen => exact h.send i buffer hlen rfl
  | recv i len =>
    obtain ⟨hist', hinv⟩ := h.recv hshort i len rfl
    exact ⟨hist', gs, hinv⟩
  | update i current heq =>
    obtain ⟨kcp, out, heq', hist', hinv⟩ := h.update hshort i current
    obtain ⟨rfl, rfl⟩ := Prod.mk.inj (Option.some.inj (heq.symm.trans heq'))
    rw [List.append_nil]
    exact ⟨hist', gs, hinv⟩
  | flush i heq =>
    obtain ⟨kcp, out, heq', hist', hinv⟩ := h.flush hshort i (.refl _)
    obtain ⟨rfl, rfl⟩ := Prod.mk.inj (Option.some.inj (heq.symm.trans heq'))
    rw [List.append_nil]
    exact ⟨hist', gs, hinv⟩
  | input i hdata =>
    obtain ⟨hist', hinv⟩ := h.input hshort i hdata
    rw [List.append_nil]
    exact ⟨hist', gs, hinv⟩
  | nodelay i nodelay interval resend nc =>
    have hp : SameParts (w.kcp i) (ikcpNodelay (w.kcp i) nodelay interval resend nc) :=
      ⟨rfl, rfl, rfl, rfl, rfl⟩
    obtain ⟨hist', hinv⟩ := h.same i hp
    rw [List.append_nil]
    exact ⟨hist', gs, hinv⟩

theorem pieces_append (mss : Nat) (msgs msgs' : List (List UInt8)) :
    pieces mss (msgs ++ msgs') = pieces mss msgs + pieces mss msgs' := by
  rw [pieces, List.map_append, List.sum_append]
  rfl

theorem Start.run (hw : Start conv w) (hr : Steps Step w tr w')
    (hshort : ∀ i, pieces (w.kcp i).mss.toNat (said i tr) < 2 ^ 31) :
    ∃ hist gs, Inv conv (fun i => (w.kcp i).config) tr hist gs w' := by
  refine Steps.inv (P := fun tr w' => (∀ i, pieces (w.kcp i).mss.toNat (said i tr) < 2 ^ 31) →
    ∃ hist gs, Inv conv (fun i => (w.kcp i).config) tr hist gs w')
    (fun _ => ⟨_, _, hw.inv⟩) (fun tr s ls s' ih hs hshort => ?_) hr hshort
  have hshort' : ∀ i, pieces (w.kcp i).mss.toNat (said i tr) < 2 ^ 31 := by
    intro i
    have := hshort i
    rw [said_append, pieces_append] at this
    omega
  obtain ⟨hist, gs, hinv⟩ := ih hshort'
  exact hinv.step hshort' hs

/-- A message is sent, delivered and taken. -/
theorem exists_run_one : ∃ w w' : Link, Start 7 w ∧
    (∀ i, (w.kcp i).stream = 0 ∧ (w.kcp i).mss = 1376 ∧ (w.kcp i).mtu = 1400) ∧
    Steps Step w [.said false [1, 2, 3], .heard true [1, 2, 3]] w' ∧
    (∃ data ∈ w'.net false, data.length = 27) ∧ (w'.kcp false).sndNxt = 1 := by
  obtain ⟨kcp, hkcp⟩ : ∃ kcp, kcp = ikcpNodelay (ikcpCreate 7) 1 10 2 1 := ⟨_, rfl⟩
  obtain ⟨data, hdata⟩ : ∃ data : List UInt8, data = [7, 0, 0, 0, 81, 0, 128, 0, 0, 0, 0, 0, 0, 0, 0, 0,
    0, 0, 0, 0, 3, 0, 0, 0, 1, 2, 3] := ⟨_, rfl⟩
  have hsend : (ikcpSend kcp [1, 2, 3] 3).1 = 3 := by
    rw [hkcp]
    decide +kernel
  have hout : (ikcpUpdate (ikcpSend kcp [1, 2, 3] 3).2 0).map (fun r => (r.1.sndNxt, r.2)) =
      some (1, [data]) := by
    rw [hkcp, hdata]
    decide +kernel
  have hrecv : (ikcpRecv (ikcpInput kcp data).2 8).1 = 3 ∧
      (ikcpRecv (ikcpInput kcp data).2 8).2.1 = [1, 2, 3] := by
    rw [hkcp, hdata]
    decide +kernel
  obtain ⟨⟨sent, out⟩, hsent, hout⟩ := Option.map_eq_some_iff.1 hout
  obtain ⟨hnxt, rfl⟩ := Prod.mk.inj hout
  let w : Link := ⟨fun _ => kcp, fun _ => []⟩
  let w₁ : Link := w.act false (ikcpSend kcp [1, 2, 3] 3).2 []
  let w₂ : Link := w₁.act false sent [data]
  let w₃ : Link := w₂.act true (ikcpInput kcp data).2 []
  have h₁ : Step w [.said false [1, 2, 3]] w₁ := by
    have h := @Step.send w false [1, 2, 3] 3 (by decide)
    rwa [show (ikcpSend (w.kcp false) [1, 2, 3] 3).1 = 3 from hsend] at h
  have h₂ : Step w₁ [] w₂ := .update false 0 hsent
  have h₃ : Step w₂ [] w₃ := .input true List.mem_cons_self
  have h₄ : Step w₃ [.heard true [1, 2, 3]] (w₃.act true (ikcpRecv (ikcpInput kcp data).2 8).2.2 []) := by
    have h := @Step.recv w₃ true 8
    rwa [show (ikcpRecv (w₃.kcp true) 8).1 = 3 from hrecv.1,
      show (ikcpRecv (w₃.kcp true) 8).2.1 = [1, 2, 3] from hrecv.2] at h
  refine ⟨w, _, ⟨fun _ => ?_, fun _ => rfl⟩, fun _ => ?_, (((Steps.single h₁).tail h₂).tail h₃).tail h₄,
    ⟨data, List.mem_singleton_self _, by rw [hdata]; rfl⟩, hnxt⟩
  · show Configured 7 kcp
    rw [hkcp]
    exact .nodelay .create 1 10 2 1
  · show kcp.stream = 0 ∧ kcp.mss = 1376 ∧ kcp.mtu = 1400
    rw [hkcp]
    decide

/-- What one upper level hears is the beginning of what the other one said, whatever the network does. -/
theorem heard_isPrefix (hw : Start conv w) (hr : Steps Step w tr w')
    (hshort : ∀ i, pieces (w.kcp i).mss.toNat (said i tr) < 2 ^ 31) (i : Bool) :
    ((w.kcp i).stream = 0 → heard (!i) tr <+: said i tr) ∧
      (heard (!i) tr).flatten <+: (said i tr).flatten := by
  obtain ⟨hist, gs, hinv⟩ := hw.run hr hshort
  have hstream : (w'.kcp i).stream = (w.kcp i).stream := congrArg Config.stream (hinv.config i)
  exact ⟨fun h0 => (hinv.flow i).messages_isPrefix (hstream.trans h0), (hinv.flow i).bytes_isPrefix⟩

theorem heard_isPrefix_one : ∃ tr, heard true tr = [[1, 2, 3]] ∧ heard true tr <+: said false tr := by
  obtain ⟨w, w', hw, hc, hr, -⟩ := exists_run_one
  refine ⟨_, rfl, (heard_isPrefix hw hr (fun i => ?_) false).1 (hc false).1⟩
  rw [(hc i).2.1]
  cases i <;> decide

/-- No call of a run overruns its buffer, no datagram is longer than the mtu, and none is refused. -/
theorem datagrams_ok (hw : Start conv w) (hr : Steps Step w tr w')
    (hshort : ∀ i, pieces (w.kcp i).mss.toNat (said i tr) < 2 ^ 31) (i : Bool) :
    (∀ current, ∃ kcp out, ikcpUpdate (w'.kcp i) current = some (kcp, out)) ∧
      (∃ kcp out, ikcpFlush (w'.kcp i) = some (kcp, out)) ∧
      ∀ data ∈ w'.net i, data ≠ [] ∧ data.length ≤ (w.kcp i).mtu.toNat ∧
        (ikcpInput (w'.kcp !i) data).1 = 0 := by
  obtain ⟨hist, gs, hinv⟩ := hw.run hr hshort
  refine ⟨fun current => ?_, ?_, fun data hd => ?_⟩
  · obtain ⟨kcp, out, heq, -⟩ := hinv.update hshort i current
    exact ⟨kcp, out, heq⟩
  · obtain ⟨kcp, out, heq, -⟩ := hinv.flush hshort i (.refl _)
    exact ⟨kcp, out, heq⟩
  · obtain ⟨segs, rfl, hdg, -⟩ := hinv.net i data hd
    refine ⟨mt Output.encodeAll_eq_nil.1 hdg.ne_nil, hdg.length_le, ?_⟩
    exact (hinv.heeded hshort (!i) (by rwa [Bool.not_not])).1

theorem datagrams_ok_one : ∃ w' : Link, (∃ data ∈ w'.net false, data.length = 27) ∧
    ∀ data ∈ w'.net false, data ≠ [] ∧ data.length ≤ 1400 ∧ (ikcpInput (w'.kcp true) data).1 = 0 := by
  obtain ⟨w, w', hw, hc, hr, hdata, -⟩ := exists_run_one
  have hok := (datagrams_ok hw hr (fun i => by rw [(hc i).2.1]; cases i <;> decide) false).2.2
  rw [(hc false).2.2] at hok
  exact ⟨w', hdata, hok⟩

/-- Every piece that got a number is at the receiver or waits at the sender, and the receiver
acknowledges only what it has. -/
theorem nothing_lost (hw : Start conv w) (hr : Steps Step w tr w')
    (hshort : ∀ i, pieces (w.kcp i).mss.toNat (said i tr) < 2 ^ 31) (i : Bool) :
    (w'.kcp !i).rcvNxt ≤ (w'.kcp i).sndNxt ∧
      (∀ k < (w'.kcp i).sndNxt.toNat,
        (w'.kcp !i).recvSide.Has k ∨ ∃ seg ∈ (w'.kcp i).sndBuf, seg.sn.toNat = k) ∧
      ∀ p ∈ (w'.kcp !i).acklist, (w'.kcp !i).recvSide.Has p.1.toNat := by
  obtain ⟨hist, gs, hinv⟩ := hw.run hr hshort
  have hflow := hinv.flow i
  refine ⟨?_, fun k hk => hflow.kept k (hflow.sndNxt ▸ hk), hflow.acks⟩
  rw [UInt32.le_iff_toNat_le, hflow.sndNxt]
  exact hflow.recvSide.rcvNxt_le

theorem nothing_lost_one : ∃ w' : Link, (w'.kcp false).sndNxt = 1 ∧
    ((w'.kcp true).recvSide.Has 0 ∨ ∃ seg ∈ (w'.kcp false).sndBuf, seg.sn.toNat = 0) := by
  obtain ⟨w, w', hw, hc, hr, -, hnxt⟩ := exists_run_one
  have hkept := (nothing_lost hw hr (fun i => by rw [(hc i).2.1]; cases i <;> decide) false).2.1
  exact ⟨w', hnxt, hkept 0 (by rw [hnxt]; decide)⟩

/-- The members that count a queue are its length, and the receiver has room for both of its queues. -/
theorem queues_ok (hw : Start conv w) (hr : Steps Step w tr w')
    (hshort : ∀ i, pieces (w.kcp i).mss.toNat (said i tr) < 2 ^ 31) (i : Bool) :
    (w'.kcp i).nsndQue = UInt32.ofNat (w'.kcp i).sndQueue.length ∧
      (w'.kcp i).nsndBuf = UInt32.ofNat (w'.kcp i).sndBuf.length ∧
      (w'.kcp i).nrcvQue.toNat = (w'.kcp i).rcvQueue.length ∧
      (w'.kcp i).nrcvBuf.toNat = (w'.kcp i).rcvBuf.length ∧
      (w'.kcp i).rcvQueue.length ≤ (w.kcp i).rcvWnd.toNat ∧
      (w'.kcp i).rcvBuf.length ≤ (w.kcp i).rcvWnd.toNat ∧ Settled (w'.kcp i) := by
  obtain ⟨hist, gs, hinv⟩ := hw.run hr hshort
  have hs := hinv.flow i
  have hr := hinv.other i
  have hwnd : (w'.kcp i).rcvWnd = (w.kcp i).rcvWnd := congrArg Config.rcvWnd (hinv.config i)
  exact ⟨hs.nsndQue, hs.nsndBuf, hr.recvSide.nrcvQue, hr.recvSide.nrcvBuf,
    hwnd ▸ hr.recvSide.queue_le, hwnd ▸ hr.recvSide.buf_le, hr.settled⟩

theorem queues_ok_one : ∃ w' : Link, (w'.kcp false).sndNxt = 1 ∧
    (w'.kcp false).nsndBuf = UInt32.ofNat (w'.kcp false).sndBuf.length ∧ Settled (w'.kcp false) := by
  obtain ⟨w, w', hw, hc, hr, -, hnxt⟩ := exists_run_one
  obtain ⟨-, hbuf, -, -, -, -, hset⟩ :=
    queues_ok hw hr (fun i => by rw [(hc i).2.1]; cases i <;> decide) false
  exact ⟨w', hnxt, hbuf, hset⟩

end Link

end FwkMlib.Kcp
