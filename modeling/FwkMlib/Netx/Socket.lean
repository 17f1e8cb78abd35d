import FwkMlib.Lib.Script
import FwkMlib.Netx.Sockaddr
import Mathlib.Logic.Function.Basic

/-!
# The sockets of netx

The functions of `netx.c` that open, connect, accept and configure sockets, as programs over the system
calls they make. A call on an open socket may fail at any time; `kernel` says what it does where it
succeeds. The log lines are left out, but for the name that `netx_set_keepalive` prints.
-/

namespace FwkMlib.Netx
open FwkMlib.Lib

def SOCK_STREAM : Int := 1

def SOL_SOCKET : Nat := 1
def SO_REUSEADDR : Nat := 2
def SO_KEEPALIVE : Nat := 9

def SOL_TCP : Nat := 6
def TCP_KEEPIDLE : Nat := 4
def TCP_KEEPINTVL : Nat := 5
def TCP_KEEPCNT : Nat := 6

def O_NONBLOCK : BitVec 32 := 0x800#32

def EINPROGRESS : Int := 115

def netxOpenFlagReuseAddr : Nat := 0x01

/-- `struct sockaddr_in`, its port and address in network order. -/
structure SockaddrIn where
  sinFamily : Nat
  sinPort : Nat
  sinAddr : UInt32
  deriving DecidableEq, Repr

/-- The fields of the `struct sockaddr_in` at the start of an object. -/
def readSockaddrIn (a : Mem) : SockaddrIn :=
  ⟨read16 a saFamily, read16 a sinPort, UInt32.ofNat (wordLE (readBytes a sinAddr sizeofInAddr))⟩

/-! ## The system calls -/

inductive NetCall where
  | socket (family : Nat) (type : Int)
  | setsockopt (fd : Int) (level optname : Nat) (value : Int)
  | fcntlGetfl (fd : Int)
  | fcntlSetfl (fd : Int) (flags : BitVec 32)
  | bind (fd : Int) (addr : SockaddrIn)
  | listen (fd : Int) (backlog : Nat)
  | connect (fd : Int) (addr : SockaddrIn)
  | accept (fd : Int)
  | getsockname (fd : Int)
  | close (fd : Int)
  | gethostname
  | gethostbyname (name : List UInt8)
  | ioctlSiocgifaddr (fd : Int) (ifrName : String)
  | read (fd : Int) (count : Nat)

/-- What a call returns, and writes where it was told to: the result, with `errno` for `connect`, the
peer's address for `accept` and the bytes for `read`. -/
@[reducible] def NetCall.Ans : NetCall → Type
  | socket _ _ | setsockopt _ _ _ _ | fcntlSetfl _ _ | bind _ _ | listen _ _ | close _ => Int
  | fcntlGetfl _ => BitVec 32
  | connect _ _ => Int × Int
  | accept _ => Int × SockaddrIn
  | getsockname _ => Option SockaddrIn
  | gethostname => Option (List UInt8)
  | gethostbyname _ => Option UInt32
  | ioctlSiocgifaddr _ _ => Option UInt32
  | read _ _ => Option (List UInt8)

abbrev Net (α : Type) := Script NetCall NetCall.Ans α

def ask (c : NetCall) : Net c.Ans := Script.ask c

/-- A socket, as the calls have made it; `backlog` is there when it listens. -/
structure Socket where
  family : Nat
  type : Int
  opts : Nat → Nat → Option Int
  nonblock : Bool
  bound : Option SockaddrIn
  backlog : Option Nat
  peer : Option SockaddrIn

def Socket.fresh (family : Nat) (type : Int) : Socket :=
  ⟨family, type, fun _ _ => none, false, none, none, none⟩

def Socket.setOpt (k : Socket) (level optname : Nat) (value : Int) : Socket :=
  { k with opts := fun l n => if l = level ∧ n = optname then some value else k.opts l n }

/-- The open sockets of the process. -/
abbrev Fds := Int → Option Socket

def Fds.set (s : Fds) (fd : Int) (k : Socket) : Fds := Function.update s fd (some k)

def Fds.unset (s : Fds) (fd : Int) : Fds := Function.update s fd none

/-- A call on an open socket fails, or changes the socket as `f` says; `P` is what it takes. -/
def Fds.Changes (s : Fds) (fd : Int) (P : Socket → Prop) (f : Socket → Socket) (ret : Int) (s' : Fds) :
    Prop :=
  (ret = -1 ∧ s' = s) ∨ ∃ k, s fd = some k ∧ P k ∧ ret = 0 ∧ s' = s.set fd (f k)

/-- The system below the calls. A call on a socket is only to be made while it is open. -/
def kernel : System NetCall NetCall.Ans Fds where
  pre c s :=
    match c with
    | .socket _ _ | .gethostname | .gethostbyname _ => True
    | .setsockopt fd _ _ _ | .fcntlGetfl fd | .fcntlSetfl fd _ | .bind fd _ | .listen fd _
    | .connect fd _ | .accept fd | .getsockname fd | .close fd | .ioctlSiocgifaddr fd _
    | .read fd _ => (s fd).isSome
  answers
    | .socket family type, s, fd, s' => (fd = -1 ∧ s' = s) ∨
        (0 ≤ fd ∧ s fd = none ∧ s' = s.set fd (Socket.fresh family type))
    | .setsockopt fd level optname value, s, ret, s' =>
        s.Changes fd (fun _ => True) (·.setOpt level optname value) ret s'
    | .fcntlSetfl fd flags, s, ret, s' =>
        s.Changes fd (fun _ => True) (fun k => { k with nonblock := flags.getLsbD 11 }) ret s'
    | .bind fd addr, s, ret, s' =>
        s.Changes fd (fun k => k.family = addr.sinFamily) (fun k => { k with bound := some addr }) ret s'
    | .listen fd backlog, s, ret, s' =>
        s.Changes fd (fun _ => True) (fun k => { k with backlog := some backlog }) ret s'
    | .connect fd addr, s, (ret, errno), s' => (ret = -1 ∧ errno ≠ EINPROGRESS ∧ s' = s) ∨
        ∃ k, s fd = some k ∧ s' = s.set fd { k with peer := some addr } ∧
          (ret = 0 ∨ ret = -1 ∧ errno = EINPROGRESS ∧ k.nonblock = true ∧ k.type = SOCK_STREAM)
    | .accept fd, s, (ret, peer), s' => (ret = -1 ∧ s' = s) ∨
        ∃ k, s fd = some k ∧ k.backlog.isSome ∧ 0 ≤ ret ∧ s ret = none ∧
          s' = s.set ret { Socket.fresh k.family k.type with peer := some peer }
    | .close fd, s, _, s' => s' = s.unset fd
    | .read _ count, s, bytes, s' => s' = s ∧ ∀ bs ∈ bytes, bs.length ≤ count
    | _, s, _, s' => s' = s

/-! ## The functions -/

def socket (family : Nat) (type : Int) : Net Int := ask (.socket family type)

def setsockopt (fd : Int) (level optname : Nat) (value : Int) : Net Int :=
  ask (.setsockopt fd level optname value)

def bind (fd : Int) (addr : SockaddrIn) : Net Int := ask (.bind fd addr)

def listen (fd : Int) (backlog : Nat) : Net Int := ask (.listen fd backlog)

def connect (fd : Int) (addr : SockaddrIn) : Net (Int × Int) := ask (.connect fd addr)

def accept (fd : Int) : Net (Int × SockaddrIn) := ask (.accept fd)

def getsockname (fd : Int) : Net (Option SockaddrIn) := ask (.getsockname fd)

def netxClose (fd : Int) : Net Int := ask (.close fd)

/-- `netx_close(fd); return -1;` where something on the way failed. -/
def closeIf (failed : Prop) [Decidable failed] (fd : Int) (k : Net Int) : Net Int :=
  if failed then do
    let _ ← netxClose fd
    pure (-1)
  else k

def callIf (c : Prop) [Decidable c] (p : Net Int) : Net Int := if c then p else pure 0

/-- `fcntl(fd, F_SETFL, fcntl(fd, F_GETFL, 0) | O_NONBLOCK)`. -/
def setNonblock (fd : Int) : Net Int := do
  let flags ← ask (.fcntlGetfl fd)
  ask (.fcntlSetfl fd (flags ||| O_NONBLOCK))

def netxOpen (type : Int) (ip : Option UInt32) (port flag : Nat) : Net Int := do
  let fd ← socket AF_INET type
  if fd < 0 then pure (-1) else do
  let addr : SockaddrIn := ⟨AF_INET, ntohs port, ip.getD 0⟩
  let ret ← callIf (port ≠ 0 ∧ flag &&& netxOpenFlagReuseAddr ≠ 0)
    (setsockopt fd SOL_SOCKET SO_REUSEADDR 1)
  closeIf (ret < 0) fd do
  let ret ← setNonblock fd
  closeIf (ret ≠ 0) fd do
  let ret ← callIf (port ≠ 0 ∨ addr.sinAddr ≠ 0) (bind fd addr)
  closeIf (ret < 0) fd do
  let ret ← callIf (type = SOCK_STREAM) (listen fd 32)
  closeIf (ret < 0) fd do
  pure fd

/-- "need setting local port" of `netx_connect_by_addr`. -/
def bindLocal (fd : Int) : Option SockaddrIn → Net Int
  | none => pure 0
  | some localAddr => do
    let ret ← setsockopt fd SOL_SOCKET SO_REUSEADDR 1
    if ret < 0 then pure (-1) else bind fd localAddr

def netxConnectByAddr (addr : SockaddrIn) (localAddr : Option SockaddrIn) : Net Int := do
  let fd ← socket AF_INET SOCK_STREAM
  if fd < 0 then pure (-1) else do
  let ret ← setNonblock fd
  closeIf (ret ≠ 0) fd do
  let ret ← bindLocal fd localAddr
  closeIf (ret < 0) fd do
  let (ret, errno) ← connect fd addr
  closeIf (ret < 0 ∧ EINPROGRESS ≠ errno) fd do
  pure fd

/-- `netx_connect`, with what it writes to `addr`; `inetAton` is `inet_aton`. -/
def netxConnect (inetAton : String → Option UInt32) (host : String) (port : Nat)
    (localIp : Option UInt32) (localPort : Nat) : Net (Int × Option SockaddrIn) :=
  match inetAton host with
  | none => pure (-1, none)
  | some ip => do
    let addr : SockaddrIn := ⟨AF_INET, htons port, ip⟩
    let addrLocal : SockaddrIn := ⟨AF_INET, ntohs localPort, localIp.getD 0⟩
    let fd ← netxConnectByAddr addr (if localPort ≠ 0 then some addrLocal else none)
    pure (fd, some addr)

/-- `netx_accept`, with the address of the peer. -/
def netxAccept (fd : Int) : Net (Int × SockaddrIn) := do
  let (acptFd, addr) ← accept fd
  if acptFd < 0 then pure (-1, addr) else do
  let ret ← setNonblock acptFd
  let ret ← closeIf (ret ≠ 0) acptFd (pure acptFd)
  pure (ret, addr)

def ascii (s : String) : List UInt8 := s.toList.map fun c => UInt8.ofNat c.toNat

/-- "Detect family" of `netx_open_2` : the family under which a fixed host is found. -/
def detectFamily (getaddrinfo : Getaddrinfo) : Nat :=
  match netxGetSockaddrByString getaddrinfo (some (ascii "54.157.82.107")) 13 7123 (some .zero) with
  | some (ret, some addrTemp) => if ret ≠ 0 ∨ addrTemp.ssFamily = AF_INET then AF_INET else AF_INET6
  | _ => AF_INET

/-- The local address that `netx_open_2` binds to; `inetAddr` is `inet_addr`. -/
def listenAddr (inetAddr : String → UInt32) (ip : Option String) (port : Nat) : Mem :=
  let sAddr := (ip.map inetAddr).getD 0
  let sAddr := if sAddr = 0xffffff then 0 else sAddr
  let addrV4 := write16 zeroMem saFamily AF_INET
  let addrV4 := writeBytes addrV4 sinAddr (bytesLE sizeofInAddr sAddr.toNat)
  write16 addrV4 sinPort (ntohs port)

/-- `netx_open_2`; its argument `ip_len` is not read. -/
def netxOpen2 (getaddrinfo : Getaddrinfo) (inetAddr : String → UInt32) (type : Int)
    (ip : Option String) (port flag : Nat) : Net Int := do
  let fd ← socket (detectFamily getaddrinfo) type
  if fd < 0 then pure (-1) else do
  let (ret, addrListen) := if ip.isSome ∨ port ≠ 0 then
      netxGetSockaddrByAddrV4 (some (listenAddr inetAddr ip port)) (some .zero)
    else (0, some .zero)
  -- this branch has no `netx_close`
  if ret ≠ 0 then pure (-1) else do
  let ret ← callIf (port ≠ 0 ∧ flag &&& netxOpenFlagReuseAddr ≠ 0)
    (setsockopt fd SOL_SOCKET SO_REUSEADDR 1)
  closeIf (ret < 0) fd do
  let ret ← setNonblock fd
  closeIf (ret ≠ 0) fd do
  let ret ← callIf (port ≠ 0 ∨ ip.isSome) (bind fd (readSockaddrIn (addrListen.getD .zero).addr))
  closeIf (ret < 0) fd do
  let ret ← callIf (type = SOCK_STREAM) (listen fd 32)
  closeIf (ret < 0) fd do
  pure fd

/-- A `long` stored in an `int`. -/
def toInt (x : Int) : Int := x.bmod (2 ^ 32)

/-- The `setsockopt` calls of `netx_set_keepalive`, up to the first that fails; its name is the one in
the error line. An option of value `0` is left alone. -/
def setOptions (fd : Int) : List (Nat × Nat × Int × String) → Net (Int × Option String)
  | [] => pure (0, none)
  | (level, optname, value, name) :: opts =>
    if value = 0 then setOptions fd opts else do
    let err ← setsockopt fd level optname value
    if err < 0 then pure (-1, some name) else setOptions fd opts

/-- The options of `netx_set_keepalive` with their values. -/
def keepaliveOptions (idleMs intervalMs times : Int) : List (Nat × Nat × Int × String) :=
  [(SOL_SOCKET, SO_KEEPALIVE, 1, "SO_KEEPALIVE"),
    (SOL_TCP, TCP_KEEPIDLE, toInt ((if idleMs ≠ 0 then idleMs else 7200000).tdiv 1000), "TCP_KEEPIDLE"),
    (SOL_TCP, TCP_KEEPINTVL, toInt ((if intervalMs ≠ 0 then intervalMs else 5000).tdiv 1000),
      "TCP_KEEPINTVL"),
    (SOL_TCP, TCP_KEEPCNT, toInt (if times ≠ 0 then times else 5), "TCP_KEEPCNT")]

/-- `netx_set_keepalive`, with the name in its error line. -/
def netxSetKeepalive (fd idleMs intervalMs times : Int) : Net (Int × Option String) :=
  setOptions fd (keepaliveOptions idleMs intervalMs times)

end FwkMlib.Netx
