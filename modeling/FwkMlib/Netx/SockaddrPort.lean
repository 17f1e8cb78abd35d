import FwkMlib.Netx.Sockaddr
import Mathlib.Tactic.SplitIfs
import Mathlib.Tactic.Common

/-!
# Two copies of one address

`struct netx_sockaddr` holds an address in `addr`, the bytes for `bind`, and in the view that its
family selects.

* `Filled.synced` : the functions that fill it write both;
* `netxSockaddrSetPort_spec` : `netx_sockaddr_set_port` writes the view alone;
* `Filled.coherent_setPorts` : after any ports were set, the copies agree on the last one exactly when
  it is the port the address was filled with.
-/

namespace FwkMlib.Netx
open FwkMlib.Lib

/-! ## Ports -/

theorem swapBytes_lt {x : Nat} (h : x < 2 ^ 16) : swapBytes x < 2 ^ 16 := by
  unfold swapBytes
  omega

theorem swapBytes_swapBytes {x : Nat} (h : x < 2 ^ 16) : swapBytes (swapBytes x) = x := by
  have hhigh : x / 256 < 256 := by omega
  have hmod : (x % 256 * 256 + x / 256) % 256 = x / 256 := by omega
  have hdiv : (x % 256 * 256 + x / 256) / 256 = x % 256 := by omega
  rw [swapBytes, swapBytes, hmod, hdiv]
  exact Nat.div_add_mod' x 256

theorem toNat_emod_lt (port : Int) : (port % 2 ^ 16).toNat < 2 ^ 16 := by omega

theorem htons_lt (port : Int) : htons port < 2 ^ 16 := swapBytes_lt (toNat_emod_lt port)

theorem htons_emod (port : Int) : htons (port % 2 ^ 16) = htons port := by
  rw [htons, htons, ntohs, ntohs, Int.emod_emod_of_dvd port (Int.dvd_refl _)]

theorem ntohs_of_lt {x : Nat} (h : x < 2 ^ 16) : ntohs x = swapBytes x := by
  have hx : ((x : Int) % 2 ^ 16).toNat = x := by omega
  rw [ntohs, hx]

/-- A port stored in network order is read back, as far as 16 bits hold it. -/
theorem ntohs_htons (port : Int) : (ntohs (htons port) : Int) = port % 2 ^ 16 := by
  rw [ntohs_of_lt (htons_lt port), htons, ntohs, swapBytes_swapBytes (toNat_emod_lt port)]
  omega

theorem htons_ntohs {x : Nat} (h : x < 2 ^ 16) : htons (ntohs x) = x := by
  rw [htons, ntohs_of_lt h, ntohs_of_lt (swapBytes_lt h), swapBytes_swapBytes h]

namespace NetxSockaddr

def rawPort (so : NetxSockaddr) : Nat := ntohs (read16 so.addr sinPort)

/-- The raw storage and the selected view are one address, with the port `port`. -/
structure Coherent (so : NetxSockaddr) (port : Int) : Prop where
  family : so.ssFamily = AF_INET ∨ so.ssFamily = AF_INET6
  addrLen : so.addrLen = so.viewSize
  bytes : readBytes so.addr 0 so.viewSize = readBytes so.view 0 so.viewSize
  rawPort : (so.rawPort : Int) = port
  getPort : (netxSockaddrGetPort (some so) : Int) = port

/-- The copies agree, with the port `port` in both as `htons` converts it. -/
structure Synced (so : NetxSockaddr) (port : Int) : Prop where
  family : so.ssFamily = AF_INET ∨ so.ssFamily = AF_INET6
  addrLen : so.addrLen = so.viewSize
  bytes : readBytes so.addr 0 so.viewSize = readBytes so.view 0 so.viewSize
  port : read16 so.view sinPort = htons port

variable {so so' : NetxSockaddr} {a : Mem} {port : Int}

theorem getPort_eq (so : NetxSockaddr) :
    netxSockaddrGetPort (some so) = ntohs (read16 so.view sinPort) := by
  unfold netxSockaddrGetPort view
  simp only
  split_ifs <;> rfl

/-- The port and the family lie inside both address structures. -/
theorem four_le_viewSize (so : NetxSockaddr) : 4 ≤ so.viewSize := by
  unfold viewSize
  split_ifs <;> decide

theorem Synced.rawPort (h : so.Synced port) : read16 so.addr sinPort = htons port := by
  rw [← h.port]
  have hsize := so.four_le_viewSize
  apply read16_eq sinPort h.bytes
  · exact Nat.zero_le _
  · rw [sinPort]
    omega

/-! ## Addresses stored twice -/

theorem Synced.of_copies (hf : so.ssFamily = AF_INET ∨ so.ssFamily = AF_INET6)
    (hp : read16 a sinPort = htons port) (hl : so.addrLen = so.viewSize)
    (hr : readBytes so.addr 0 so.viewSize = readBytes a 0 so.viewSize)
    (hv : readBytes so.view 0 so.viewSize = readBytes a 0 so.viewSize) : so.Synced port := by
  refine ⟨hf, hl, hr.trans hv.symm, ?_⟩
  have hsize := so.four_le_viewSize
  rw [← hp]
  apply read16_eq sinPort hv
  · exact Nat.zero_le _
  · rw [sinPort]
    omega

theorem Synced.of_v4 (hf : read16 a saFamily = AF_INET) (hp : read16 a sinPort = htons port)
    (hl : so.addrLen = sizeofSockaddrIn)
    (hr : readBytes so.addr 0 sizeofSockaddrIn = readBytes a 0 sizeofSockaddrIn)
    (hv : readBytes so.addrV4 0 sizeofSockaddrIn = readBytes a 0 sizeofSockaddrIn) :
    so.Synced port := by
  have hfam : so.ssFamily = AF_INET := (read16_eq saFamily hr (by decide) (by decide)).trans hf
  have hview : so.view = so.addrV4 := if_pos hfam
  have hsize : so.viewSize = sizeofSockaddrIn := if_pos hfam
  rw [← hsize] at hl hr hv
  rw [← hview] at hv
  exact .of_copies (.inl hfam) hp hl hr hv

theorem Synced.of_v6 (hf : read16 a saFamily = AF_INET6) (hp : read16 a sinPort = htons port)
    (hl : so.addrLen = sizeofSockaddrIn6)
    (hr : readBytes so.addr 0 sizeofSockaddrIn6 = readBytes a 0 sizeofSockaddrIn6)
    (hv : readBytes so.addrV6 0 sizeofSockaddrIn6 = readBytes a 0 sizeofSockaddrIn6) :
    so.Synced port := by
  have hfam : so.ssFamily = AF_INET6 := (read16_eq saFamily hr (by decide) (by decide)).trans hf
  have hne : so.ssFamily ≠ AF_INET := by
    rw [hfam]
    decide
  have hview : so.view = so.addrV6 := if_neg hne
  have hsize : so.viewSize = sizeofSockaddrIn6 := if_neg hne
  rw [← hsize] at hl hr hv
  rw [← hview] at hv
  exact .of_copies (.inr hfam) hp hl hr hv

/-- The addresses found, of which the IPv6 one has the right of way. -/
theorem synced_storeFound {in4 in6 : Option Mem} (h4 : ∀ b ∈ in4, read16 b saFamily = AF_INET)
    (h6 : ∀ b ∈ in6, read16 b saFamily = AF_INET6) (ha : in6.or in4 = some a)
    (hp : read16 a sinPort = htons port) : (storeFound so in4 in6).Synced port := by
  cases in6 with
  | some b =>
    cases ha
    apply Synced.of_v6 (h6 a rfl) hp rfl
    · show readBytes (copyBytes so.addr (copyBytes so.addrV6 a sizeofSockaddrIn6)
        sizeofSockaddrIn6) 0 sizeofSockaddrIn6 = _
      rw [readBytes_copyBytes, readBytes_copyBytes]
    · exact readBytes_copyBytes so.addrV6 a sizeofSockaddrIn6
  | none =>
    rw [Option.none_or] at ha
    subst ha
    apply Synced.of_v4 (h4 a rfl) hp rfl
    · show readBytes (copyBytes so.addr (copyBytes so.addrV4 a sizeofSockaddrIn)
        sizeofSockaddrIn) 0 sizeofSockaddrIn = _
      rw [readBytes_copyBytes, readBytes_copyBytes]
    · exact readBytes_copyBytes so.addrV4 a sizeofSockaddrIn

end NetxSockaddr

theorem read16_eq_htons (a : Mem) : read16 a sinPort = htons (ntohs (read16 a sinPort)) := by
  rw [htons_ntohs (read16_lt a sinPort)]

open NetxSockaddr

variable {so so' : NetxSockaddr} {port : Int}

theorem netxGetSockaddrByAddr_synced {addr : Mem}
    (h : netxGetSockaddrByAddr (some addr) (some so) = (0, some so')) :
    so'.Synced (ntohs (read16 addr sinPort)) := by
  unfold netxGetSockaddrByAddr at h
  simp only at h
  split_ifs at h with hv4 hv6
  · cases h
    apply Synced.of_v4 hv4 (read16_eq_htons addr) rfl
    · simp only [readBytes_copyBytes]
    · exact readBytes_copyBytes zeroMem addr sizeofSockaddrIn
  · cases h
    apply Synced.of_v6 hv6 (read16_eq_htons addr) rfl
    · simp only [readBytes_copyBytes]
    · exact readBytes_copyBytes zeroMem addr sizeofSockaddrIn6
  · cases h

/-- The family is made `AF_INET`, whatever it was. -/
theorem netxGetSockaddrByAddrV4_synced {addrV4 : Mem}
    (h : netxGetSockaddrByAddrV4 (some addrV4) (some so) = (0, some so')) :
    so'.Synced (ntohs (read16 addrV4 sinPort)) := by
  cases h
  have hcopy := readBytes_copyBytes zeroMem addrV4 sizeofSockaddrIn
  apply Synced.of_v4 (a := write16 addrV4 saFamily 2)
  · exact read16_write16 addrV4 saFamily AF_INET
  · rw [read16_write16_of_disjoint (.inr (by decide)), ← read16_eq_htons]
  · rfl
  · exact readBytes_write16_congr saFamily 2 hcopy
  · exact readBytes_write16_congr saFamily 2 hcopy

/-! ## The loops over answers -/

def lastOf (f : Nat) (res : List Addrinfo) : Option Mem :=
  (res.filter fun r => decide (r.aiFamily = f)).getLast?.map Addrinfo.aiAddr

theorem lastOf_cons (f : Nat) (r : Addrinfo) (res : List Addrinfo) :
    lastOf f (r :: res) = (lastOf f res).or (if r.aiFamily = f then some r.aiAddr else none) := by
  unfold lastOf
  by_cases h : r.aiFamily = f
  · rw [List.filter_cons, if_pos (decide_eq_true h), List.getLast?_cons, if_pos h]
    cases (res.filter fun r => decide (r.aiFamily = f)).getLast? <;> rfl
  · rw [List.filter_cons, if_neg (by rwa [decide_eq_true_eq]), if_neg h, Option.or_none]

theorem mem_of_lastOf {f : Nat} {res : List Addrinfo} {a : Mem} (h : lastOf f res = some a) :
    ∃ r ∈ res, r.aiFamily = f ∧ r.aiAddr = a := by
  obtain ⟨r, hr, ha⟩ := Option.map_eq_some_iff.1 h
  have hmem := List.mem_filter.1 (List.mem_of_getLast? hr)
  exact ⟨r, hmem.1, of_decide_eq_true hmem.2, ha⟩

theorem lastOf_isSome {f : Nat} {res : List Addrinfo} {r : Addrinfo} (hr : r ∈ res)
    (hf : r.aiFamily = f) : ∃ a, lastOf f res = some a := by
  have hmem : r ∈ res.filter fun r => decide (r.aiFamily = f) :=
    List.mem_filter.2 ⟨hr, decide_eq_true hf⟩
  obtain ⟨r', hr'⟩ := List.getLast?_isSome.2 (List.ne_nil_of_mem hmem) |> Option.isSome_iff_exists.1
  exact ⟨r'.aiAddr, by rw [lastOf, hr']; rfl⟩

theorem scanAddrinfo_eq (res : List Addrinfo) : ∀ in4 in6,
    scanAddrinfo res in4 in6 = ((lastOf AF_INET res).or in4, (lastOf AF_INET6 res).or in6) := by
  induction res with
  | nil => intro in4 in6; rfl
  | cons r res ih =>
    intro in4 in6
    rw [lastOf_cons, lastOf_cons, scanAddrinfo, Option.or_assoc, Option.or_assoc]
    split_ifs with h4 h6 h6
    · rw [h4] at h6
      exact absurd h6 (by decide)
    · exact ih _ _
    · exact ih _ _
    · exact ih _ _

def firstUsable (usable : Mem → Bool) (ifa : List (Option Mem)) : Option Mem :=
  ifa.findSome? fun a => a.filter usable

theorem firstUsable_mem {usable : Mem → Bool} {ifa : List (Option Mem)} {a : Mem}
    (h : firstUsable usable ifa = some a) : usable a = true := by
  obtain ⟨b, -, hb⟩ := List.exists_of_findSome?_eq_some h
  exact (Option.filter_eq_some_iff.1 hb).2

theorem firstUsable_cons (usable : Mem → Bool) (a : Mem) (ifa : List (Option Mem)) :
    firstUsable usable (some a :: ifa) =
      if usable a then some a else firstUsable usable ifa := by
  unfold firstUsable
  rw [List.findSome?_cons, Option.filter_some]
  split_ifs <;> rfl

theorem scanIfaddrs_eq (ifa : List (Option Mem)) : ∀ in4 in6,
    scanIfaddrs ifa in4 in6 =
      (in4.or (firstUsable usableV4 ifa), in6.or (firstUsable usableV6 ifa)) := by
  induction ifa with
  | nil => intro in4 in6; rw [scanIfaddrs]; simp [firstUsable]
  | cons a ifa ih =>
    intro in4 in6
    cases a with
    | none => exact ih in4 in6
    | some a =>
      have hkeep : ∀ (o : Option Mem) (u : Mem → Bool),
          (if o.isNone && u a then some a else o).or (firstUsable u ifa) =
            o.or (firstUsable u (some a :: ifa)) := by
        intro o u
        rw [firstUsable_cons]
        cases o with
        | none => cases u a <;> rfl
        | some b => rfl
      have hother : ∀ u, u a = false → firstUsable u (some a :: ifa) = firstUsable u ifa := by
        intro u hu
        rw [firstUsable_cons, hu]
        rfl
      rw [scanIfaddrs]
      by_cases h4 : read16 a saFamily = AF_INET
      · rw [if_pos h4, ih, hkeep, hother usableV6]
        rw [usableV6, h4]
        rfl
      · rw [if_neg h4, hother usableV4 (decide_eq_false fun hu => h4 hu.1)]
        by_cases h6 : read16 a saFamily = AF_INET6
        · rw [if_pos h6, ih, hkeep]
        · rw [if_neg h6, ih, hother usableV6 (decide_eq_false fun hu => h6 hu.1)]

/-! ## Addresses asked for -/

/-- The IPv6 address if there is one, else the IPv4 one. -/
theorem or_isSome {f4 f6 : Nat} {res : List Addrinfo}
    (h : ∃ r ∈ res, r.aiFamily = f4 ∨ r.aiFamily = f6) :
    ∃ a, (lastOf f6 res).or (lastOf f4 res) = some a := by
  obtain ⟨r, hr, hf⟩ := h
  cases hl : lastOf f6 res with
  | some a => exact ⟨a, rfl⟩
  | none =>
    rw [Option.none_or]
    apply lastOf_isSome hr
    apply hf.resolve_right
    intro h6
    obtain ⟨a, ha⟩ := lastOf_isSome hr h6
    rw [hl] at ha
    cases ha

theorem netxGetSockaddrByString_synced {getaddrinfo : Getaddrinfo} {ip : Option (List UInt8)}
    {ipLen : Int} {node : List UInt8} (hnode : tempIp ip ipLen = some node)
    (hfamily : ∀ r ∈ (getaddrinfo node (toString port) hints).2, read16 r.aiAddr saFamily = r.aiFamily)
    (hfound : ∃ r ∈ (getaddrinfo node (toString port) hints).2,
      r.aiFamily = AF_INET ∨ r.aiFamily = AF_INET6)
    (h : netxGetSockaddrByString getaddrinfo ip ipLen port (some so) = some (0, some so')) :
    so'.Synced port := by
  unfold netxGetSockaddrByString at h
  simp only [hnode, Option.bind_eq_bind, Option.bind_some, scanAddrinfo_eq, Option.or_none] at h
  split_ifs at h with hret
  · exact absurd (congrArg Prod.fst (Option.some.inj h)) hret
  obtain rfl := Option.some.inj (congrArg Prod.snd (Option.some.inj h))
  obtain ⟨a, ha⟩ := or_isSome hfound
  have hmem : ∀ f, ∀ b ∈ (lastOf f (getaddrinfo node (toString port) hints).2).map
      fun a => write16 a sinPort (ntohs port), read16 b saFamily = f := by
    intro f b hb
    obtain ⟨c, hc, rfl⟩ := Option.map_eq_some_iff.1 hb
    obtain ⟨r, hr, hrf, rfl⟩ := mem_of_lastOf hc
    rw [read16_write16_of_disjoint (.inl (by decide)), hfamily r hr, hrf]
  apply synced_storeFound (hmem AF_INET) (hmem AF_INET6)
  · show (Option.map _ _).or (Option.map _ _) = _
    rw [← Option.map_or, ha]
    rfl
  · rw [read16_write16]
    exact Nat.mod_eq_of_lt (htons_lt port)

theorem netxGetLocalIp2Ifaddrs_synced {getifaddrs : Int × List (Option Mem)} {a : Mem}
    (hfound : (firstUsable usableV6 getifaddrs.2).or (firstUsable usableV4 getifaddrs.2) = some a)
    (h : netxGetLocalIp2Ifaddrs getifaddrs (some so) = (0, some so')) :
    so'.Synced (ntohs (read16 a sinPort)) := by
  unfold netxGetLocalIp2Ifaddrs at h
  simp only [scanIfaddrs_eq, Option.none_or] at h
  split_ifs at h with hret
  · exact absurd (congrArg Prod.fst h) hret
  obtain rfl := Option.some.inj (congrArg Prod.snd h)
  apply synced_storeFound _ _ hfound (read16_eq_htons a)
  · intro b hb
    exact (of_decide_eq_true (firstUsable_mem hb)).1
  · intro b hb
    exact (of_decide_eq_true (firstUsable_mem hb)).1

/-- The address found has no port. -/
theorem netxGetLocalIp2_synced {env : LocalIp}
    (h : netxGetLocalIp2 env (some so) = (0, some so')) : so'.Synced 0 := by
  unfold netxGetLocalIp2 at h
  simp only at h
  split_ifs at h
  · cases h
  cases h
  refine Synced.of_v4 ?_ ?_ rfl (readBytes_copyBytes _ _ _) rfl
  · exact read16_write16 _ saFamily AF_INET
  · rw [read16_write16_of_disjoint (.inr (by decide)), read16,
      readBytes_writeBytes_of_disjoint (.inl (by decide))]
    have hzero : readBytes (writeBytes so.addrV4 0 (List.replicate sizeofSockaddrIn 0)) 0
        sizeofSockaddrIn = readBytes zeroMem 0 sizeofSockaddrIn :=
      readBytes_writeBytes so.addrV4 0 (List.replicate sizeofSockaddrIn 0)
    have hport : read16 zeroMem sinPort = htons 0 := by decide
    exact (read16_eq sinPort hzero (by decide) (by decide)).trans hport

/-! ## Filled, and ports set afterwards -/

/-- What a successful call that finds an address leaves, and the port asked for. `getaddrinfo` answers
addresses of the families it names. -/
inductive Filled : NetxSockaddr → Int → Prop
  | byAddr {addr : Mem} {so so' : NetxSockaddr}
    (h : netxGetSockaddrByAddr (some addr) (some so) = (0, some so')) :
    Filled so' (ntohs (read16 addr sinPort))
  | byAddrV4 {addrV4 : Mem} {so so' : NetxSockaddr}
    (h : netxGetSockaddrByAddrV4 (some addrV4) (some so) = (0, some so')) :
    Filled so' (ntohs (read16 addrV4 sinPort))
  | byString {getaddrinfo : Getaddrinfo} {ip : Option (List UInt8)} {ipLen port : Int}
    {node : List UInt8} {so so' : NetxSockaddr} (hnode : tempIp ip ipLen = some node)
    (hfamily : ∀ r ∈ (getaddrinfo node (toString port) hints).2,
      read16 r.aiAddr saFamily = r.aiFamily)
    (hfound : ∃ r ∈ (getaddrinfo node (toString port) hints).2,
      r.aiFamily = AF_INET ∨ r.aiFamily = AF_INET6)
    (h : netxGetSockaddrByString getaddrinfo ip ipLen port (some so) = some (0, some so')) :
    Filled so' port
  | localIp {env : LocalIp} {so so' : NetxSockaddr}
    (h : netxGetLocalIp2 env (some so) = (0, some so')) : Filled so' 0
  | localIpIfaddrs {getifaddrs : Int × List (Option Mem)} {a : Mem} {so so' : NetxSockaddr}
    (hfound : (firstUsable usableV6 getifaddrs.2).or (firstUsable usableV4 getifaddrs.2) = some a)
    (h : netxGetLocalIp2Ifaddrs getifaddrs (some so) = (0, some so')) :
    Filled so' (ntohs (read16 a sinPort))

/-- Each function that fills an address writes both copies. -/
theorem Filled.synced (h : Filled so port) : so.Synced port := by
  induction h with
  | byAddr h => exact netxGetSockaddrByAddr_synced h
  | byAddrV4 h => exact netxGetSockaddrByAddrV4_synced h
  | byString hnode hfamily hfound h => exact netxGetSockaddrByString_synced hnode hfamily hfound h
  | localIp h => exact netxGetLocalIp2_synced h
  | localIpIfaddrs hfound h => exact netxGetLocalIp2Ifaddrs_synced hfound h

/-- `so` is `so₀` with the port `port` in the selected view. -/
structure Follows (so₀ : NetxSockaddr) (port : Int) (so : NetxSockaddr) : Prop where
  addr : so.addr = so₀.addr
  addrLen : so.addrLen = so₀.addrLen
  view : so.view = write16 so₀.view sinPort (htons port)

variable {so₀ : NetxSockaddr}

theorem Synced.follows (h : so.Synced port) : Follows so port so := by
  refine ⟨rfl, rfl, ?_⟩
  rw [← h.port, write16_read16]

/-- **`netx_sockaddr_set_port`** writes the selected view and leaves the raw storage alone. -/
theorem netxSockaddrSetPort_spec (so : NetxSockaddr) (port : Int) :
    ∃ so', netxSockaddrSetPort (some so) port = some so' ∧ so'.addr = so.addr ∧
      so'.addrLen = so.addrLen ∧ so'.view = write16 so.view sinPort (htons port) := by
  by_cases hf : so.ssFamily = AF_INET
  · refine ⟨{ so with addrV4 := write16 so.addrV4 sinPort (htons port) }, congrArg some (if_pos hf),
      rfl, rfl, ?_⟩
    rw [NetxSockaddr.view, NetxSockaddr.view, if_pos hf]
    exact if_pos hf
  · refine ⟨{ so with addrV6 := write16 so.addrV6 sinPort (htons port) }, congrArg some (if_neg hf),
      rfl, rfl, ?_⟩
    rw [NetxSockaddr.view, NetxSockaddr.view, if_neg hf]
    exact if_neg hf

theorem Follows.setPort (h : Follows so₀ port so) (port' : Int) :
    ∃ so', netxSockaddrSetPort (some so) port' = some so' ∧ Follows so₀ port' so' := by
  obtain ⟨so', hset, haddr, hlen, hview⟩ := netxSockaddrSetPort_spec so port'
  refine ⟨so', hset, haddr.trans h.addr, hlen.trans h.addrLen, ?_⟩
  rw [hview, h.view, write16_write16]

theorem Follows.setPorts (ports : List Int) : ∀ {port : Int} {so : NetxSockaddr},
    Follows so₀ port so → ∃ so', ports.foldl netxSockaddrSetPort (some so) = some so' ∧
      Follows so₀ (ports.getLastD port) so' := by
  induction ports with
  | nil => intro port so h; exact ⟨so, rfl, h⟩
  | cons port' ports ih =>
    intro port so h
    obtain ⟨so₁, hset, h₁⟩ := h.setPort port'
    rw [List.foldl_cons, hset, List.getLastD_cons]
    exact ih h₁

theorem Follows.ssFamily (h : Follows so₀ port so) : so.ssFamily = so₀.ssFamily := by
  rw [NetxSockaddr.ssFamily, NetxSockaddr.ssFamily, h.addr]

/-- The two copies still agree when the port is the one they were filled with. -/
theorem Follows.coherent_iff {port' : Int} (hs : so₀.Synced port) (h : Follows so₀ port' so) :
    so.Coherent port' ↔ port' = port % 2 ^ 16 := by
  have hraw : (so.rawPort : Int) = port % 2 ^ 16 := by
    rw [NetxSockaddr.rawPort, h.addr, hs.rawPort, ntohs_htons]
  have hsize : so.viewSize = so₀.viewSize := by
    rw [NetxSockaddr.viewSize, NetxSockaddr.viewSize, h.ssFamily]
  constructor
  · intro hc
    rw [← hc.rawPort, hraw]
  · intro hp
    have hview : so.view = so₀.view := by
      rw [h.view, hp, htons_emod, ← hs.port, write16_read16]
    refine ⟨?_, ?_, ?_, hraw.trans hp.symm, ?_⟩
    · rw [h.ssFamily]
      exact hs.family
    · rw [h.addrLen, hsize]
      exact hs.addrLen
    · rw [h.addr, hview, hsize]
      exact hs.bytes
    · rw [getPort_eq, hview, hs.port, ntohs_htons, hp]

/-- **The copies of an address**, after any ports were set: they agree on the last port exactly when
that is the port the address was filled with, as 16 bits hold it. -/
theorem Filled.coherent_setPorts (h : Filled so port) (ports : List Int) :
    ∃ so', ports.foldl netxSockaddrSetPort (some so) = some so' ∧
      (so'.Coherent (ports.getLastD port) ↔ ports.getLastD port = port % 2 ^ 16) := by
  obtain ⟨so', hset, hf⟩ := (Synced.follows h.synced).setPorts ports
  exact ⟨so', hset, hf.coherent_iff h.synced⟩

/-- An IPv4 address with the port 80, in memory. -/
def addr80 : Mem := write16 (write16 zeroMem saFamily AF_INET) sinPort (htons 80)

/-- The address filled from it, set to the port 80 again. -/
theorem Filled.coherent_setPorts_80 : ∃ so so', Filled so (ntohs (read16 addr80 sinPort)) ∧
    [80].foldl netxSockaddrSetPort (some so) = some so' ∧ so'.Coherent 80 := by
  have hfilled := Filled.byAddr (rfl : netxGetSockaddrByAddr (some addr80)
    (some NetxSockaddr.zero) = (0, some _))
  obtain ⟨so', hset, hiff⟩ := Filled.coherent_setPorts hfilled [80]
  exact ⟨_, so', hfilled, hset, hiff.2 (by decide)⟩

/-- Set to the port 8080, `bind` still gets the port 80. -/
theorem netxSockaddrSetPort_stale : ∃ so so', Filled so 80 ∧
    netxSockaddrSetPort (some so) 8080 = some so' ∧ ¬ so'.Coherent 8080 ∧
    netxSockaddrGetPort (some so') = 8080 ∧ so'.rawPort = 80 := by
  have hfilled := Filled.byAddr (rfl : netxGetSockaddrByAddr (some addr80)
    (some NetxSockaddr.zero) = (0, some _))
  refine ⟨_, _, hfilled, rfl, fun hc => ?_, ?_, ?_⟩
  · exact absurd hc.rawPort (by decide)
  · decide
  · decide

end FwkMlib.Netx
