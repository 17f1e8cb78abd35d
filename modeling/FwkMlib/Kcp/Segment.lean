import FwkMlib.Lib.Bytes
import FwkMlib.Lib.Pieces
import FwkMlib.Lib.Serial

/-!
# Segments of KCP

`ikcp_encode_seg` writes the header of a segment, 24 bytes in little-endian order; `ikcp_input` reads it
field by field (`decodeHeader`).

* `decodeHeader_ikcpEncodeSeg` : a header that was written is read back, cut to the sizes of its fields.
-/

namespace FwkMlib.Kcp
open FwkMlib.Lib

def IKCP_RTO_NDL : Int32 := 30
def IKCP_RTO_MIN : Int32 := 100
def IKCP_RTO_DEF : Int32 := 200
def IKCP_RTO_MAX : UInt32 := 60000
def IKCP_CMD_PUSH : UInt8 := 81
def IKCP_CMD_ACK : UInt8 := 82
def IKCP_CMD_WASK : UInt8 := 83
def IKCP_CMD_WINS : UInt8 := 84
def IKCP_ASK_SEND : UInt32 := 1
def IKCP_ASK_TELL : UInt32 := 2
def IKCP_WND_SND : UInt32 := 32
def IKCP_WND_RCV : UInt32 := 128
def IKCP_MTU_DEF : UInt32 := 1400
def IKCP_INTERVAL : UInt32 := 100
def IKCP_OVERHEAD : UInt32 := 24
def IKCP_DEADLINK : UInt32 := 20
def IKCP_THRESH_INIT : UInt32 := 2
def IKCP_THRESH_MIN : UInt32 := 2
def IKCP_PROBE_INIT : UInt32 := 7000
def IKCP_PROBE_LIMIT : UInt32 := 120000
def IKCP_FASTACK_LIMIT : Int32 := 5

def imin (a b : UInt32) : UInt32 := if a ≤ b then a else b

def imax (a b : UInt32) : UInt32 := if b ≤ a then a else b

def ibound (lower middle upper : UInt32) : UInt32 := imin (imax lower middle) upper

def itimediff (later earlier : UInt32) : Int := serialDiff later earlier

/-- `IKCPSEG`; `len` is the length of `data`. -/
structure Segment where
  conv : UInt32 := 0
  cmd : UInt32 := 0
  frg : UInt32 := 0
  wnd : UInt32 := 0
  ts : UInt32 := 0
  sn : UInt32 := 0
  una : UInt32 := 0
  resendts : UInt32 := 0
  rto : UInt32 := 0
  fastack : UInt32 := 0
  xmit : UInt32 := 0
  data : List UInt8 := []
  deriving DecidableEq, Repr

namespace Segment

def len (seg : Segment) : UInt32 := UInt32.ofNat seg.data.length

/-- What of a message it carries. -/
def piece (seg : Segment) : Piece UInt8 := (seg.frg.toNat, seg.data)

end Segment

/-- What of a segment does not change while it is sent again and again. -/
structure Core where
  conv : UInt32
  cmd : UInt32
  sn : UInt32
  frg : UInt32
  data : List UInt8

def Segment.core (seg : Segment) : Core := ⟨seg.conv, seg.cmd, seg.sn, seg.frg, seg.data⟩

/-! ## Encoding -/

def ikcpEncode8u (c : UInt8) : List UInt8 := [c]

def ikcpEncode16u (w : UInt16) : List UInt8 := bytesLE 2 w.toNat

def ikcpEncode32u (l : UInt32) : List UInt8 := bytesLE 4 l.toNat

def ikcpEncodeSeg (seg : Segment) : List UInt8 :=
  ikcpEncode32u seg.conv ++ ikcpEncode8u seg.cmd.toUInt8 ++ ikcpEncode8u seg.frg.toUInt8 ++
    ikcpEncode16u seg.wnd.toUInt16 ++ ikcpEncode32u seg.ts ++ ikcpEncode32u seg.sn ++
    ikcpEncode32u seg.una ++ ikcpEncode32u seg.len

/-! ## Decoding -/

def ikcpDecode8u (p : List UInt8) : UInt8 × List UInt8 := (p.headD 0, p.drop 1)

def ikcpDecode16u (p : List UInt8) : UInt16 × List UInt8 :=
  (UInt16.ofNat (wordLE (p.take 2)), p.drop 2)

def ikcpDecode32u (p : List UInt8) : UInt32 × List UInt8 :=
  (UInt32.ofNat (wordLE (p.take 4)), p.drop 4)

/-- The fields of a header as `ikcp_input` reads them. -/
structure Header where
  conv : UInt32
  cmd : UInt8
  frg : UInt8
  wnd : UInt16
  ts : UInt32
  sn : UInt32
  una : UInt32
  len : UInt32
  deriving DecidableEq, Repr

/-- The header at the start of `data`, and what follows it. -/
def decodeHeader (data : List UInt8) : Header × List UInt8 :=
  let (conv, data) := ikcpDecode32u data
  let (cmd, data) := ikcpDecode8u data
  let (frg, data) := ikcpDecode8u data
  let (wnd, data) := ikcpDecode16u data
  let (ts, data) := ikcpDecode32u data
  let (sn, data) := ikcpDecode32u data
  let (una, data) := ikcpDecode32u data
  let (len, data) := ikcpDecode32u data
  (⟨conv, cmd, frg, wnd, ts, sn, una, len⟩, data)

/-- What of a segment is on the wire. -/
def Segment.header (seg : Segment) : Header where
  conv := seg.conv
  cmd := seg.cmd.toUInt8
  frg := seg.frg.toUInt8
  wnd := seg.wnd.toUInt16
  ts := seg.ts
  sn := seg.sn
  una := seg.una
  len := seg.len

variable (rest : List UInt8)

theorem ikcpDecode32u_encode (l : UInt32) :
    ikcpDecode32u (ikcpEncode32u l ++ rest) = (l, rest) := by
  have hlen : (ikcpEncode32u l).length = 4 := length_bytesLE 4 _
  unfold ikcpDecode32u
  have hlt : l.toNat < 256 ^ 4 := l.toNat_lt
  rw [← hlen, List.take_left, List.drop_left, ikcpEncode32u, wordLE_bytesLE]
  rw [Nat.mod_eq_of_lt hlt, UInt32.ofNat_toNat]

theorem ikcpDecode16u_encode (w : UInt16) :
    ikcpDecode16u (ikcpEncode16u w ++ rest) = (w, rest) := by
  have hlen : (ikcpEncode16u w).length = 2 := length_bytesLE 2 _
  unfold ikcpDecode16u
  have hlt : w.toNat < 256 ^ 2 := w.toNat_lt
  rw [← hlen, List.take_left, List.drop_left, ikcpEncode16u, wordLE_bytesLE]
  rw [Nat.mod_eq_of_lt hlt, UInt16.ofNat_toNat]

theorem ikcpDecode8u_encode (c : UInt8) : ikcpDecode8u (ikcpEncode8u c ++ rest) = (c, rest) := rfl

@[simp] theorem length_ikcpEncodeSeg (seg : Segment) : (ikcpEncodeSeg seg).length = 24 := by
  simp [ikcpEncodeSeg, ikcpEncode32u, ikcpEncode16u, ikcpEncode8u]

/-- A header that was written is read back. -/
theorem decodeHeader_ikcpEncodeSeg (seg : Segment) :
    decodeHeader (ikcpEncodeSeg seg ++ rest) = (seg.header, rest) := by
  unfold decodeHeader ikcpEncodeSeg
  simp only [List.append_assoc, ikcpDecode32u_encode, ikcpDecode16u_encode, ikcpDecode8u_encode]
  rfl

end FwkMlib.Kcp
