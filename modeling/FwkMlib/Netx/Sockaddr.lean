import FwkMlib.Lib.Bytes
import Mathlib.Algebra.Group.Int.Defs
import Mathlib.Data.List.Basic

/-!
# Socket addresses

`struct netx_sockaddr` of `netx.h`, its two port macros and the four functions of `netx.c` that fill
it. The C objects are bytes from their own address on, since the source copies between
`sockaddr_storage`, `sockaddr_in` and `sockaddr_in6` with `memcpy` and casts; the machine is
little-endian.

What the system calls answer (`getaddrinfo`, `getifaddrs`, and the calls below `netx_get_local_ip`)
are parameters.
-/

namespace FwkMlib.Netx
open FwkMlib.Lib

def AF_INET : Nat := 2
def AF_INET6 : Nat := 10

def sizeofSockaddrIn : Nat := 16
def sizeofSockaddrIn6 : Nat := 28

/-! The fields of the address structures; `sa_family`, `ss_family`, `sin_family` and `sin6_family` are
in one place, and so are the two ports. -/

def saFamily : Nat := 0
def sinPort : Nat := 2
def sinAddr : Nat := 4
def sin6Addr : Nat := 8

def sizeofInAddr : Nat := 4
def sizeofIn6Addr : Nat := 16

def swapBytes (x : Nat) : Nat := x % 256 * 256 + x / 256

/-- `ntohs`, of an argument converted to 16 bits. -/
def ntohs (x : Int) : Nat := swapBytes (x % 2 ^ 16).toNat

/-- `htons` swaps the bytes as well. -/
def htons (x : Int) : Nat := ntohs x

/-- `struct netx_sockaddr` : the raw storage, its length and the two typed views. -/
structure NetxSockaddr where
  addr : Mem
  addrLen : Nat
  addrV4 : Mem
  addrV6 : Mem

/-- An object as `memset` leaves it. -/
def zeroMem : Mem := ⟨fun _ => 0⟩

def NetxSockaddr.zero : NetxSockaddr := ⟨zeroMem, 0, zeroMem, zeroMem⟩

namespace NetxSockaddr

/-- `so_addr->addr.ss_family`. -/
def ssFamily (so : NetxSockaddr) : Nat := read16 so.addr saFamily

/-- The typed view that the family selects. -/
def view (so : NetxSockaddr) : Mem := if so.ssFamily = AF_INET then so.addrV4 else so.addrV6

def viewSize (so : NetxSockaddr) : Nat :=
  if so.ssFamily = AF_INET then sizeofSockaddrIn else sizeofSockaddrIn6

end NetxSockaddr

def netxSockaddrGetPort (soAddr : Option NetxSockaddr) : Nat :=
  match soAddr with
  | some so => ntohs
      (if so.ssFamily = AF_INET then read16 so.addrV4 sinPort else read16 so.addrV6 sinPort : Nat)
  | none => ntohs 0

def netxSockaddrSetPort (soAddr : Option NetxSockaddr) (port : Int) : Option NetxSockaddr :=
  soAddr.map fun so =>
    if so.ssFamily = AF_INET then { so with addrV4 := write16 so.addrV4 sinPort (htons port) }
    else { so with addrV6 := write16 so.addrV6 sinPort (htons port) }

def netxGetSockaddrByAddr (addr : Option Mem) (soAddr : Option NetxSockaddr) :
    Int × Option NetxSockaddr :=
  match addr, soAddr with
  | some addr, some _ =>
    let so := NetxSockaddr.zero
    if read16 addr saFamily = AF_INET then
      let addrV4 := copyBytes so.addrV4 addr sizeofSockaddrIn
      (0, some { so with
        addrLen := sizeofSockaddrIn
        addrV4 := addrV4
        addr := copyBytes so.addr addrV4 sizeofSockaddrIn })
    else if read16 addr saFamily = AF_INET6 then
      let addrV6 := copyBytes so.addrV6 addr sizeofSockaddrIn6
      let temp := readBytes addr (sin6Addr + sizeofIn6Addr - sizeofInAddr) sizeofInAddr
      let addrV4 := writeBytes (write16 so.addrV4 saFamily AF_INET) sinAddr temp
      (0, some
        { addrLen := sizeofSockaddrIn6
          addrV6 := addrV6
          addr := copyBytes so.addr addrV6 sizeofSockaddrIn6
          addrV4 := write16 addrV4 sinPort (read16 addr sinPort) })
    else (-1, some so)
  | _, _ => (-1, soAddr)

def netxGetSockaddrByAddrV4 (addrV4 : Option Mem) (soAddr : Option NetxSockaddr) :
    Int × Option NetxSockaddr :=
  match addrV4, soAddr with
  | some addrV4, some _ =>
    let so := NetxSockaddr.zero
    (0, some { so with
      addrLen := sizeofSockaddrIn
      addrV4 := write16 (copyBytes so.addrV4 addrV4 sizeofSockaddrIn) saFamily 2
      addr := write16 (copyBytes so.addr addrV4 sizeofSockaddrIn) saFamily 2 })
  | _, _ => (-1, soAddr)

/-- The end of `netx_get_sockaddr_by_string` and of `netx_get_local_ip_2` : the addresses found are
stored, and the raw storage takes the IPv6 one if there is one. -/
def storeFound (so : NetxSockaddr) (in4 in6 : Option Mem) : NetxSockaddr :=
  let addrV4 := match in4 with
    | some a => copyBytes so.addrV4 a sizeofSockaddrIn
    | none => so.addrV4
  let addrV6 := match in6 with
    | some a => copyBytes so.addrV6 a sizeofSockaddrIn6
    | none => so.addrV6
  let so := { so with addrV4 := addrV4, addrV6 := addrV6 }
  match in6, in4 with
  | some _, _ => { so with
      addrLen := sizeofSockaddrIn6
      addr := copyBytes so.addr addrV6 sizeofSockaddrIn6 }
  | none, some _ => { so with
      addrLen := sizeofSockaddrIn
      addr := copyBytes so.addr addrV4 sizeofSockaddrIn }
  | none, none => so

/-- What `netx_get_sockaddr_by_string` reads of a `struct addrinfo`. -/
structure Addrinfo where
  aiFamily : Nat
  aiAddr : Mem

/-- The `hints` for `getaddrinfo`; the other fields are zero. -/
structure AddrinfoHints where
  aiFamily : Nat
  aiSocktype : Nat
  aiFlags : Nat
  deriving DecidableEq, Repr

def PF_UNSPEC : Nat := 0
def SOCK_DGRAM : Nat := 2

/-- The loop over the answers of `getaddrinfo`: the last address of each family. -/
def scanAddrinfo : List Addrinfo → Option Mem → Option Mem → Option Mem × Option Mem
  | [], in4, in6 => (in4, in6)
  | r :: res, in4, in6 =>
    if r.aiFamily = AF_INET then scanAddrinfo res (some r.aiAddr) in6
    else if r.aiFamily = AF_INET6 then scanAddrinfo res in4 (some r.aiAddr)
    else scanAddrinfo res in4 in6

/-- `char temp_ip[256]` after `ip_len` bytes were copied into it; none, when these are not all inside
`ip` and the array. -/
def tempIp (ip : Option (List UInt8)) (ipLen : Int) : Option (List UInt8) :=
  match ip with
  | none => some (List.replicate 256 0)
  | some ip =>
    if 0 ≤ ipLen ∧ ipLen.toNat ≤ ip.length ∧ ipLen.toNat ≤ 256 then
      some (ip.take ipLen.toNat ++ List.replicate (256 - ipLen.toNat) 0)
    else none

def hints : AddrinfoHints := ⟨PF_UNSPEC, SOCK_DGRAM, 0⟩

/-- `getaddrinfo` : the node, the service and the hints to the result and the list of answers. -/
abbrev Getaddrinfo := List UInt8 → String → AddrinfoHints → Int × List Addrinfo

/-- `netx_get_sockaddr_by_string`; none, when the copy of `ip` leaves its array. -/
def netxGetSockaddrByString (getaddrinfo : Getaddrinfo) (ip : Option (List UInt8))
    (ipLen port : Int) (soAddr : Option NetxSockaddr) : Option (Int × Option NetxSockaddr) :=
  match soAddr with
  | none => some (-1, none)
  | some _ => do
    let so := NetxSockaddr.zero
    let temp ← tempIp ip ipLen
    let (ret, res) := getaddrinfo temp (toString port) hints
    if ret ≠ 0 then some (ret, some so) else
    let (in4, in6) := scanAddrinfo res none none
    let setPort := fun a => write16 a sinPort (ntohs port)
    some (ret, some (storeFound so (in4.map setPort) (in6.map setPort)))

/-- What the calls below `netx_get_local_ip` answer: the local address of a socket that could be
opened and connected, the address of the host's name, and the addresses of its interfaces, if a
socket could be opened to ask for them. -/
structure LocalIp where
  getsockname : Option UInt32
  gethostbyname : Option UInt32
  ioctl : Option (String → Option UInt32)

/-- `netx_get_local_ip`, on a valid pointer, with the address it leaves there. -/
def netxGetLocalIp (env : LocalIp) : Int × UInt32 :=
  let addr := env.getsockname.getD 0
  let addr := if addr = 0 then
      match env.gethostbyname with
      | some host => if host = 0 ∨ host.toNat % 256 = 127 then addr else host
      | none => addr
    else addr
  let addr := if addr = 0 then
      match env.ioctl with
      | some ioctl => (["eth0", "eth1"].findSome? ioctl).getD addr
      | none => addr
    else addr
  if addr = 0 then (-2, addr) else (0, addr)

/-- `netx_get_local_ip_2` when `_getifaddrs` is not defined. -/
def netxGetLocalIp2 (env : LocalIp) (soAddr : Option NetxSockaddr) : Int × Option NetxSockaddr :=
  match soAddr with
  | none => (-1, none)
  | some so =>
    let zeroV4 := writeBytes so.addrV4 0 (List.replicate sizeofSockaddrIn 0)
    let (ret, ip) := netxGetLocalIp env
    let addrV4 := writeBytes zeroV4 sinAddr (bytesLE sizeofInAddr ip.toNat)
    if ret ≠ 0 then (-1, some { so with addrV4 := addrV4 }) else
    let addrV4 := write16 addrV4 saFamily AF_INET
    (0, some { so with
      addrV4 := addrV4
      addrLen := sizeofSockaddrIn
      addr := copyBytes so.addr addrV4 sizeofSockaddrIn })

/-- Not the loopback address. -/
def usableV4 (a : Mem) : Bool :=
  decide (read16 a saFamily = AF_INET ∧ wordLE (readBytes a sinAddr sizeofInAddr) ≠ 0x100007F)

/-- Not link-local, and not beginning with a zero. -/
def usableV6 (a : Mem) : Bool :=
  decide (read16 a saFamily = AF_INET6 ∧
    ¬ ((a sin6Addr = 0xfe ∧ a (sin6Addr + 1) = 0x80) ∨ a sin6Addr = 0))

/-- The loop over the interfaces: the first usable address of each family. -/
def scanIfaddrs : List (Option Mem) → Option Mem → Option Mem → Option Mem × Option Mem
  | [], in4, in6 => (in4, in6)
  | none :: ifa, in4, in6 => scanIfaddrs ifa in4 in6
  | some a :: ifa, in4, in6 =>
    if read16 a saFamily = AF_INET then
      scanIfaddrs ifa (if in4.isNone && usableV4 a then some a else in4) in6
    else if read16 a saFamily = AF_INET6 then
      scanIfaddrs ifa in4 (if in6.isNone && usableV6 a then some a else in6)
    else scanIfaddrs ifa in4 in6

/-- `netx_get_local_ip_2` when `_getifaddrs` is defined; `getifaddrs` is its result and the list of
`ifa_addr`. -/
def netxGetLocalIp2Ifaddrs (getifaddrs : Int × List (Option Mem)) (soAddr : Option NetxSockaddr) :
    Int × Option NetxSockaddr :=
  match soAddr with
  | none => (-1, none)
  | some so =>
    if getifaddrs.1 ≠ 0 then (getifaddrs.1, some so) else
    let (in4, in6) := scanIfaddrs getifaddrs.2 none none
    (0, some (storeFound so in4 in6))

end FwkMlib.Netx
