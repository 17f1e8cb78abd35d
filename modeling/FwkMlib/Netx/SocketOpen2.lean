import FwkMlib.Netx.SocketSpec
import FwkMlib.Netx.SockaddrFound

/-!
# `netx_open_2`

`netx_open_2` makes a socket of the family under which a fixed host is found, and binds it to an IPv4
address.

* `detectFamily_eq` : the family that is found;
* `netxOpen2_opens` : the socket that is made. With a family other than `AF_INET` none can be bound.
-/

namespace FwkMlib.Netx
open FwkMlib.Lib

variable {getaddrinfo : Getaddrinfo} {inetAddr : String → UInt32} {ip : Option String}
  {port flag : Nat} {type : Int} {s : Fds}

/-! ## The family -/

/-- What `getaddrinfo` answers for the host that is asked for. -/
def detectAnswer (getaddrinfo : Getaddrinfo) : Int × List Addrinfo :=
  getaddrinfo (ascii "54.157.82.107" ++ List.replicate 243 0) (toString (7123 : Int)) hints

theorem tempIp_detect : tempIp (some (ascii "54.157.82.107")) 13 =
    some (ascii "54.157.82.107" ++ List.replicate 243 0) := by
  have h : 0 ≤ (13 : Int) ∧ (13 : Int).toNat ≤ (ascii "54.157.82.107").length ∧
      (13 : Int).toNat ≤ 256 := by
    decide
  unfold tempIp
  dsimp only
  rw [if_pos h]
  rfl

/-- The last answer of a family, with the port that goes with it. -/
def detected (getaddrinfo : Getaddrinfo) (family : Nat) : Option Mem :=
  (lastOf family (detectAnswer getaddrinfo).2).map fun a => write16 a sinPort (ntohs 7123)

theorem netxGetSockaddrByString_detect :
    netxGetSockaddrByString getaddrinfo (some (ascii "54.157.82.107")) 13 7123 (some .zero) =
      some ((detectAnswer getaddrinfo).1, some (if (detectAnswer getaddrinfo).1 ≠ 0 then .zero
        else storeFound .zero (detected getaddrinfo AF_INET) (detected getaddrinfo AF_INET6))) := by
  unfold netxGetSockaddrByString detected
  simp only [tempIp_detect, Option.bind_eq_bind, Option.bind_some, scanAddrinfo_eq, Option.or_none]
  by_cases hret : (detectAnswer getaddrinfo).1 = 0
  · rw [if_neg (not_not.2 hret)]
    exact if_neg (not_not.2 hret)
  · rw [if_pos hret]
    exact if_pos hret

theorem NetxSockaddr.Holds.ssFamily {so : NetxSockaddr} {e : Nat × Mem} (h : so.Holds e) :
    so.ssFamily = read16 e.2 saFamily := by
  apply read16_eq saFamily h.addr (Nat.zero_le _)
  rw [h.addrLen]
  split_ifs <;> decide

theorem lastOf_eq_none {f : Nat} {res : List Addrinfo} :
    lastOf f res = none ↔ ∀ r ∈ res, r.aiFamily ≠ f := by
  constructor
  · intro h r hr hf
    obtain ⟨a, ha⟩ := lastOf_isSome hr hf
    rw [h] at ha
    cases ha
  · intro h
    by_contra hne
    obtain ⟨a, ha⟩ := Option.ne_none_iff_exists'.1 hne
    obtain ⟨r, hr, hf, -⟩ := mem_of_lastOf ha
    exact h r hr hf

/-- **The family** is `AF_INET` where the host is not found, or has an IPv4 address and none of IPv6. -/
theorem detectFamily_eq (hfamily : ∀ r ∈ (detectAnswer getaddrinfo).2,
      read16 r.aiAddr saFamily = r.aiFamily) :
    detectFamily getaddrinfo = if (detectAnswer getaddrinfo).1 ≠ 0 ∨
        ((∃ r ∈ (detectAnswer getaddrinfo).2, r.aiFamily = AF_INET) ∧
          ∀ r ∈ (detectAnswer getaddrinfo).2, r.aiFamily ≠ AF_INET6) then AF_INET else AF_INET6 := by
  unfold detectFamily
  rw [netxGetSockaddrByString_detect]
  by_cases hret : (detectAnswer getaddrinfo).1 = 0
  · have hfound : ∀ f, ∀ a ∈ detected getaddrinfo f, read16 a saFamily = f := by
      intro f a ha
      obtain ⟨b, hb, rfl⟩ := Option.map_eq_some_iff.1 ha
      obtain ⟨r, hr, hf, rfl⟩ := mem_of_lastOf hb
      rw [read16_write16_of_disjoint (.inl (by decide)), hfamily r hr, hf]
    have hnone : ∀ f, detected getaddrinfo f = none ↔
        ∀ r ∈ (detectAnswer getaddrinfo).2, r.aiFamily ≠ f := by
      intro f
      rw [detected, Option.map_eq_none_iff, lastOf_eq_none]
    simp only [hret, ne_eq, not_true_eq_false, if_false, false_or]
    cases h6 : detected getaddrinfo AF_INET6 with
    | some a =>
      have hssFamily := (NetxSockaddr.holds_storeFound_v6 .zero (detected getaddrinfo AF_INET) a).ssFamily
      rw [if_neg, if_neg]
      · rintro ⟨-, hno6⟩
        rw [(hnone _).2 hno6] at h6
        cases h6
      · rw [hssFamily, hfound _ a h6]
        decide
    | none =>
      have hno6 := (hnone _).1 h6
      cases h4 : detected getaddrinfo AF_INET with
      | some a =>
        have hssFamily := (NetxSockaddr.holds_storeFound_v4 .zero a).ssFamily
        rw [if_pos, if_pos]
        · refine ⟨?_, hno6⟩
          by_contra hno4
          rw [(hnone _).2 fun r hr hf => hno4 ⟨r, hr, hf⟩] at h4
          cases h4
        · rw [hssFamily, hfound _ a h4]
      | none =>
        rw [if_neg (by decide), if_neg]
        rintro ⟨⟨r, hr, hf⟩, -⟩
        exact (hnone _).1 h4 r hr hf
  · simp only [ne_eq, hret, not_false_eq_true, true_or, if_true]

/-- The host has one address, an IPv4 one. -/
theorem detectFamily_eq_v4 : detectFamily (fun _ _ _ => (0, [⟨AF_INET, addr80⟩])) = AF_INET := by
  rw [detectFamily_eq (by decide)]
  exact if_pos (.inr ⟨⟨_, List.mem_singleton_self _, rfl⟩, by decide⟩)

/-! ## The address -/

/-- The address that is bound to. The text of 255.255.255.0 stands for any address. -/
def listenSockaddr (inetAddr : String → UInt32) (ip : Option String) (port : Nat) : SockaddrIn :=
  ⟨AF_INET, ntohs port, if (ip.map inetAddr).getD 0 = 0xffffff then 0 else (ip.map inetAddr).getD 0⟩

theorem readBytes_write16_of_disjoint {m : Mem} {a b n v : Nat} (h : b + n ≤ a ∨ a + 2 ≤ b) :
    readBytes (write16 m a v) b n = readBytes m b n :=
  readBytes_writeBytes_of_disjoint (by rwa [length_bytesLE])

theorem ofNat_wordLE_bytesLE (v : UInt32) :
    UInt32.ofNat (wordLE (bytesLE sizeofInAddr v.toNat)) = v := by
  have hlt : v.toNat < 256 ^ sizeofInAddr := v.toNat_lt
  rw [wordLE_bytesLE, Nat.mod_eq_of_lt hlt]
  exact UInt32.ofNat_toNat

theorem readSockaddrIn_listenAddr :
    readSockaddrIn (listenAddr inetAddr ip port) = listenSockaddr inetAddr ip port := by
  have hport : ntohs port % 2 ^ 16 = ntohs port := Nat.mod_eq_of_lt (htons_lt port)
  have haddr : ∀ (m : Mem) (v : UInt32),
      readBytes (writeBytes m sinAddr (bytesLE sizeofInAddr v.toNat)) sinAddr sizeofInAddr =
        bytesLE sizeofInAddr v.toNat := by
    intro m v
    have h := readBytes_writeBytes m sinAddr (bytesLE sizeofInAddr v.toNat)
    rwa [length_bytesLE] at h
  unfold readSockaddrIn listenAddr listenSockaddr
  dsimp only
  rw [read16_write16, hport, readBytes_write16_of_disjoint (.inr (by decide)), haddr,
    ofNat_wordLE_bytesLE, read16_write16_of_disjoint (.inl (by decide))]
  congr 1

/-- `netx_get_sockaddr_by_addr_v4` does not fail, and keeps the fields. -/
theorem netxGetSockaddrByAddrV4_listenAddr (inetAddr : String → UInt32) (ip : Option String)
    (port : Nat) : ∃ so,
    netxGetSockaddrByAddrV4 (some (listenAddr inetAddr ip port)) (some .zero) = (0, some so) ∧
    readSockaddrIn so.addr = listenSockaddr inetAddr ip port := by
  refine ⟨_, rfl, ?_⟩
  have hcopy := readBytes_copyBytes NetxSockaddr.zero.addr (listenAddr inetAddr ip port) sizeofSockaddrIn
  have hfamily : read16 (listenAddr inetAddr ip port) saFamily = AF_INET :=
    congrArg SockaddrIn.sinFamily readSockaddrIn_listenAddr
  rw [← readSockaddrIn_listenAddr]
  unfold readSockaddrIn
  dsimp only
  rw [read16_write16, read16_write16_of_disjoint (.inr (by decide)),
    readBytes_write16_of_disjoint (.inr (by decide)), read16_eq sinPort hcopy (by decide) (by decide),
    readBytes_within hcopy (by decide) (by decide), hfamily]
  rfl

/-! ## The socket -/

def opened2Socket (family : Nat) (type : Int) (addr : SockaddrIn) (ip : Option String) (port flag : Nat) :
    Socket :=
  let k := Socket.fresh family type
  let k := if port ≠ 0 ∧ flag &&& netxOpenFlagReuseAddr ≠ 0 then k.setOpt SOL_SOCKET SO_REUSEADDR 1 else k
  let k := { k with nonblock := true }
  let k := if port ≠ 0 ∨ ip.isSome then { k with bound := some addr } else k
  if type = SOCK_STREAM then { k with backlog := some 32 } else k

/-- What the address of the call comes to, and the call goes on to. -/
theorem listenAddr_cases (inetAddr : String → UInt32) (ip : Option String) (port : Nat) : ∃ so : NetxSockaddr,
    (if ip.isSome ∨ port ≠ 0 then
        netxGetSockaddrByAddrV4 (some (listenAddr inetAddr ip port)) (some .zero)
      else (0, some .zero)) = (0, some so) ∧
    (port ≠ 0 ∨ ip.isSome → readSockaddrIn so.addr = listenSockaddr inetAddr ip port) := by
  obtain ⟨so, hso, hread⟩ := netxGetSockaddrByAddrV4_listenAddr inetAddr ip port
  split_ifs with h
  · exact ⟨so, hso, fun _ => hread⟩
  · exact ⟨.zero, rfl, fun h' => absurd h'.symm h⟩

/-- A function that would make any of two different sockets makes none. -/
theorem Returns.wp_none {P : (c : NetCall) → c.Ans → Prop} {p : Net Int} {t : Fds} {c : Prop}
    {k : Socket} (h : p.wp (kernel.only P) (Returns P s k) t)
    (hany : c → ∃ K : Bool → Socket, K true ≠ K false ∧
      ∀ b, p.wp (kernel.only P) (Returns P s (K b)) t) :
    p.wp (kernel.only P) (fun ret s' => Returns P s k ret s' ∧ (c → ret = -1)) t := by
  by_cases hc : c
  · obtain ⟨K, hne, hK⟩ := hany hc
    apply Script.wp_mono _ (Script.wp_and h (Script.wp_and (hK true) (hK false)))
    rintro ret s' ⟨hk, ⟨ht, -⟩, hf, -⟩
    refine ⟨hk, fun _ => ?_⟩
    rcases ht with ⟨hret, -⟩ | ⟨-, -, rfl⟩
    · exact hret
    · rcases hf with ⟨hret, -⟩ | ⟨-, -, hs'⟩
      · exact hret
      · have hK := congrFun hs' ret
        rw [Fds.set_self, Fds.set_self] at hK
        exact absurd (Option.some.inj hK) hne
  · exact Script.wp_mono (fun ret s' hk => ⟨hk, fun h => absurd h hc⟩) h

theorem family_setReuse {c : Prop} [Decidable c] {k : Socket} {level optname : Nat} {value : Int} :
    (if c then k.setOpt level optname value else k).family = k.family := by
  split_ifs <;> rfl

theorem netxOpen2_returns (P : (c : NetCall) → c.Ans → Prop) (s : Fds) (getaddrinfo : Getaddrinfo)
    (inetAddr : String → UInt32) (type : Int) (ip : Option String) (port flag : Nat) :
    (netxOpen2 getaddrinfo inetAddr type ip port flag).wp (kernel.only P) (fun ret s' =>
      Returns P s (opened2Socket (detectFamily getaddrinfo) type (listenSockaddr inetAddr ip port) ip port
        flag) ret s' ∧
      ((port ≠ 0 ∨ ip.isSome) ∧ detectFamily getaddrinfo ≠ AF_INET → ret = -1)) s := by
  unfold netxOpen2
  simp only [Script.bind_eq, Script.pure_eq]
  rw [Script.wp_bind]
  refine wp_socket.2 ⟨fun hP => ?_, fun fd h0 hs _ => ?_⟩
  · rw [if_pos (by decide)]
    exact ⟨.failed fun h => h _ _ hP rfl, fun _ => rfl⟩
  · obtain ⟨so, hso, hread⟩ := listenAddr_cases inetAddr ip port
    rw [if_neg (by omega), hso]
    simp only [ne_eq, not_true_eq_false, if_false, Option.getD_some]
    apply Returns.wp_none
    · have hbind : port ≠ 0 ∨ ip.isSome → ∀ k, Works P fd (bind fd (readSockaddrIn so.addr)) k
          { k with bound := some (listenSockaddr inetAddr ip port) } := by
        intro hc k
        rw [hread hc]
        exact Works.bind
      apply (Works.ite fun _ => .setsockopt).closeIf_neg hs
      apply Works.setNonblock.closeIf_ne hs
      apply (Works.ite fun hc => hbind hc _).closeIf_neg hs
      apply (Works.ite fun _ => .listen).closeIf_neg hs
      exact .opened h0 hs
    · rintro ⟨hc, hfamily⟩
      let made := fun b : Bool => Socket.fresh 0 (if b then 1 else 0)
      refine ⟨fun b => if type = SOCK_STREAM then { made b with backlog := some 32 } else made b, ?_, ?_⟩
      · intro h
        have htype := congrArg Socket.type h
        split_ifs at htype <;> exact absurd htype (by decide)
      · intro b
        apply (Works.ite fun _ => .setsockopt).closeIf_neg hs
        apply Works.setNonblock.closeIf_ne hs
        have hrefused : ∀ k, k.family = detectFamily getaddrinfo →
            Works P fd (bind fd (readSockaddrIn so.addr)) k (made b) := by
          intro k hk
          apply Works.bind_ne
          rw [hread hc, hk]
          exact hfamily
        apply Works.closeIf_neg (.of_pos hc (hrefused _ ?_)) hs
        rotate_left
        · exact family_setReuse
        apply (Works.ite fun _ => .listen).closeIf_neg hs
        exact .opened h0 hs

/-- **`netx_open_2`** : `-1` leaves no socket behind, and any other result is a new socket, non-blocking,
bound and listening as asked for. One that is to be bound is only made where the family is `AF_INET`. -/
theorem netxOpen2_opens (s : Fds) (getaddrinfo : Getaddrinfo) (inetAddr : String → UInt32) (type : Int)
    (ip : Option String) (port flag : Nat) :
    (netxOpen2 getaddrinfo inetAddr type ip port flag).wp kernel (fun ret s' =>
      Opened s (opened2Socket (detectFamily getaddrinfo) type (listenSockaddr inetAddr ip port) ip port
        flag) ret s' ∧
      ((port ≠ 0 ∨ ip.isSome) ∧ detectFamily getaddrinfo ≠ AF_INET → ret = -1)) s ∧
    (netxOpen2 getaddrinfo inetAddr type ip port flag).wp (kernel.only NetCall.succeeds)
      (fun ret _ => 0 ≤ ret) s := by
  constructor
  · rw [← System.only_true kernel]
    exact Script.wp_mono (fun _ _ h => ⟨h.1.1, h.2⟩) (netxOpen2_returns _ s _ _ _ _ _ _)
  · exact Script.wp_mono (fun _ _ h => h.1.2 fun _ _ hx => hx) (netxOpen2_returns _ s _ _ _ _ _ _)

end FwkMlib.Netx
