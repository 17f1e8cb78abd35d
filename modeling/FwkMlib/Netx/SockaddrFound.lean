import FwkMlib.Netx.SockaddrPort
import Mathlib.Data.List.ReduceOption

/-!
# What the two functions that ask for an address return

`netx_get_sockaddr_by_string` and `netx_get_local_ip_2` pick a usable address out of a list of the
library and store it.

* `NetxSockaddr.holds_storeFound` : a usable address is stored, an IPv6 one if there is one;
* `sockaddrFound_iff` : the result says so, unless the library answers with no usable address.
-/

namespace FwkMlib.Netx
open FwkMlib.Lib

/-! ## Usable entries -/

/-- The usable answers of `getaddrinfo`, each with its family and the port asked for. -/
def usableAddrinfo (port : Int) (res : List Addrinfo) : List (Nat × Mem) :=
  (res.filter fun r => decide (r.aiFamily = AF_INET ∨ r.aiFamily = AF_INET6)).map
    fun r => (r.aiFamily, write16 r.aiAddr sinPort (ntohs port))

/-- The usable addresses of the interfaces, each with its family. -/
def usableIfaddrs (ifa : List (Option Mem)) : List (Nat × Mem) :=
  (ifa.reduceOption.filter fun a => usableV4 a || usableV6 a).map fun a => (read16 a saFamily, a)

variable {port : Int} {res : List Addrinfo} {ifa : List (Option Mem)} {e : Nat × Mem}

theorem mem_usableAddrinfo : e ∈ usableAddrinfo port res ↔
    ∃ r ∈ res, (r.aiFamily = AF_INET ∨ r.aiFamily = AF_INET6) ∧
      (r.aiFamily, write16 r.aiAddr sinPort (ntohs port)) = e := by
  simp only [usableAddrinfo, List.mem_map, List.mem_filter, decide_eq_true_eq, and_assoc]

theorem mem_usableIfaddrs : e ∈ usableIfaddrs ifa ↔
    ∃ a, some a ∈ ifa ∧ (usableV4 a = true ∨ usableV6 a = true) ∧ (read16 a saFamily, a) = e := by
  simp only [usableIfaddrs, List.mem_map, List.mem_filter, List.reduceOption_mem_iff,
    Bool.or_eq_true, and_assoc]

theorem usableV4_family {a : Mem} (h : usableV4 a = true) : read16 a saFamily = AF_INET :=
  (of_decide_eq_true h).1

theorem usableV6_family {a : Mem} (h : usableV6 a = true) : read16 a saFamily = AF_INET6 :=
  (of_decide_eq_true h).1

theorem family_usableAddrinfo (h : e ∈ usableAddrinfo port res) :
    e.1 = AF_INET ∨ e.1 = AF_INET6 := by
  obtain ⟨r, -, hf, rfl⟩ := mem_usableAddrinfo.1 h
  exact hf

theorem family_usableIfaddrs (h : e ∈ usableIfaddrs ifa) : e.1 = AF_INET ∨ e.1 = AF_INET6 := by
  obtain ⟨a, -, hu, rfl⟩ := mem_usableIfaddrs.1 h
  apply hu.imp
  · exact usableV4_family
  · exact usableV6_family

/-! ## Entries picked by a scan -/

/-- `o` is a usable entry of the family `f`, if there is one. -/
structure Picked (usable : List (Nat × Mem)) (f : Nat) (o : Option Mem) : Prop where
  mem : ∀ a ∈ o, (f, a) ∈ usable
  isSome : ∀ e ∈ usable, e.1 = f → o.isSome

theorem picked_lastOf {f : Nat} (hf : f = AF_INET ∨ f = AF_INET6) :
    Picked (usableAddrinfo port res) f
      ((lastOf f res).map fun a => write16 a sinPort (ntohs port)) := by
  constructor
  · intro a ha
    obtain ⟨b, hb, rfl⟩ := Option.map_eq_some_iff.1 ha
    obtain ⟨r, hr, hrf, rfl⟩ := mem_of_lastOf hb
    rw [← hrf] at hf ⊢
    exact mem_usableAddrinfo.2 ⟨r, hr, hf, rfl⟩
  · intro e he hef
    obtain ⟨r, hr, -, rfl⟩ := mem_usableAddrinfo.1 he
    obtain ⟨a, ha⟩ := lastOf_isSome hr hef
    rw [Option.isSome_map, ha]
    exact Option.isSome_some

theorem mem_of_firstUsable {u : Mem → Bool} {a : Mem} (h : firstUsable u ifa = some a) :
    some a ∈ ifa := by
  obtain ⟨b, hb, hba⟩ := List.exists_of_findSome?_eq_some h
  rwa [(Option.filter_eq_some_iff.1 hba).1] at hb

theorem firstUsable_isSome {u : Mem → Bool} {a : Mem} (ha : some a ∈ ifa) (hu : u a = true) :
    (firstUsable u ifa).isSome := by
  apply List.findSome?_isSome_iff.2
  refine ⟨some a, ha, ?_⟩
  rw [Option.filter_some, if_pos hu]
  exact Option.isSome_some

/-- A filter that asks for the family `f` picks among the usable entries of that family. -/
theorem picked_firstUsable {u : Mem → Bool} {f : Nat} (hf : ∀ a, u a = true → read16 a saFamily = f)
    (hu : ∀ a, u a = true → usableV4 a = true ∨ usableV6 a = true)
    (hother : ∀ a, usableV4 a = true ∨ usableV6 a = true → read16 a saFamily = f → u a = true) :
    Picked (usableIfaddrs ifa) f (firstUsable u ifa) := by
  constructor
  · intro a ha
    have hua := firstUsable_mem ha
    rw [← hf a hua]
    exact mem_usableIfaddrs.2 ⟨a, mem_of_firstUsable ha, hu a hua, rfl⟩
  · intro e he hef
    obtain ⟨a, ha, hua, rfl⟩ := mem_usableIfaddrs.1 he
    exact firstUsable_isSome ha (hother a hua hef)

theorem picked_usableV4 : Picked (usableIfaddrs ifa) AF_INET (firstUsable usableV4 ifa) := by
  apply picked_firstUsable
  · exact fun a => usableV4_family
  · exact fun a => .inl
  · intro a hu hf
    apply hu.resolve_right
    intro h6
    rw [usableV6_family h6] at hf
    exact absurd hf (by decide)

theorem picked_usableV6 : Picked (usableIfaddrs ifa) AF_INET6 (firstUsable usableV6 ifa) := by
  apply picked_firstUsable
  · exact fun a => usableV6_family
  · exact fun a => .inr
  · intro a hu hf
    apply hu.resolve_left
    intro h4
    rw [usableV4_family h4] at hf
    exact absurd hf (by decide)

/-! ## The address stored -/

namespace NetxSockaddr

/-- Both copies are the entry `e`, as long as an address of its family is. -/
structure Holds (so : NetxSockaddr) (e : Nat × Mem) : Prop where
  addrLen : so.addrLen = if e.1 = AF_INET then sizeofSockaddrIn else sizeofSockaddrIn6
  addr : readBytes so.addr 0 so.addrLen = readBytes e.2 0 so.addrLen
  view : readBytes (if e.1 = AF_INET then so.addrV4 else so.addrV6) 0 so.addrLen =
    readBytes e.2 0 so.addrLen

theorem holds_storeFound_v6 (so : NetxSockaddr) (in4 : Option Mem) (a : Mem) :
    (storeFound so in4 (some a)).Holds (AF_INET6, a) := by
  have hview := readBytes_copyBytes so.addrV6 a sizeofSockaddrIn6
  refine ⟨rfl, ?_, hview⟩
  exact (readBytes_copyBytes so.addr _ sizeofSockaddrIn6).trans hview

theorem holds_storeFound_v4 (so : NetxSockaddr) (a : Mem) :
    (storeFound so (some a) none).Holds (AF_INET, a) := by
  have hview := readBytes_copyBytes so.addrV4 a sizeofSockaddrIn
  refine ⟨rfl, ?_, hview⟩
  exact (readBytes_copyBytes so.addr _ sizeofSockaddrIn).trans hview

variable {usable : List (Nat × Mem)} {in4 in6 : Option Mem}

/-- **The end of both functions** : of the entries picked, a usable one is stored, and one of IPv6 if
there is one. -/
theorem holds_storeFound (so : NetxSockaddr)
    (hf : ∀ e ∈ usable, e.1 = AF_INET ∨ e.1 = AF_INET6) (h4 : Picked usable AF_INET in4)
    (h6 : Picked usable AF_INET6 in6) (hne : usable ≠ []) :
    ∃ e ∈ usable, (storeFound so in4 in6).Holds e ∧
      ((∃ e' ∈ usable, e'.1 = AF_INET6) → e.1 = AF_INET6) := by
  cases hin6 : in6 with
  | some a =>
    exact ⟨(AF_INET6, a), h6.mem a hin6, holds_storeFound_v6 so in4 a, fun _ => rfl⟩
  | none =>
    have hno6 : ∀ e ∈ usable, e.1 ≠ AF_INET6 := by
      intro e he hef
      have hsome := h6.isSome e he hef
      rw [hin6] at hsome
      cases hsome
    obtain ⟨e, he⟩ := List.exists_mem_of_ne_nil usable hne
    obtain ⟨a, ha⟩ := Option.isSome_iff_exists.1
      (h4.isSome e he ((hf e he).resolve_right (hno6 e he)))
    refine ⟨(AF_INET, a), h4.mem a ha, ?_, ?_⟩
    · rw [ha]
      exact holds_storeFound_v4 so a
    · rintro ⟨e', he', h6'⟩
      exact absurd h6' (hno6 e' he')

end NetxSockaddr

/-! ## The result -/

/-- The result `ret` and the address `so` are right: the library call answered `status`, and its list
has the usable entries `usable`. -/
structure Found (status : Int) (usable : List (Nat × Mem)) (ret : Int) (so : NetxSockaddr) :
    Prop where
  zero_iff : ret = 0 ↔ status = 0 ∧ usable ≠ []
  holds : ret = 0 → ∃ e ∈ usable, so.Holds e ∧
    ((∃ e' ∈ usable, e'.1 = AF_INET6) → e.1 = AF_INET6)

variable {status : Int} {usable : List (Nat × Mem)} {in4 in6 : Option Mem}

theorem found_of_failed (so : NetxSockaddr) (h : status ≠ 0) : Found status usable status so := by
  constructor
  · constructor
    · exact fun h0 => absurd h0 h
    · exact fun h0 => h0.1
  · exact fun h0 => absurd h0 h

/-- One that answers leaves the result 0, with the entries picked stored. -/
theorem found_storeFound_iff (so : NetxSockaddr) (hf : ∀ e ∈ usable, e.1 = AF_INET ∨ e.1 = AF_INET6)
    (h4 : Picked usable AF_INET in4) (h6 : Picked usable AF_INET6 in6) :
    Found 0 usable 0 (storeFound so in4 in6) ↔ usable ≠ [] := by
  constructor
  · intro h
    exact (h.zero_iff.1 rfl).2
  · intro hne
    refine ⟨?_, fun _ => NetxSockaddr.holds_storeFound so hf h4 h6 hne⟩
    exact ⟨fun _ => ⟨rfl, hne⟩, fun _ => rfl⟩

theorem tempIp_isSome {ip : Option (List UInt8)} {ipLen : Int}
    (h : ∀ s ∈ ip, 0 ≤ ipLen ∧ ipLen < 256 ∧ ipLen ≤ s.length) :
    ∃ node, tempIp ip ipLen = some node := by
  cases ip with
  | none => exact ⟨_, rfl⟩
  | some s =>
    obtain ⟨hpos, hlt, hle⟩ := h s rfl
    refine ⟨_, if_pos ⟨hpos, ?_, ?_⟩⟩
    · omega
    · omega

theorem netxGetSockaddrByString_found {getaddrinfo : Getaddrinfo} {ip : Option (List UInt8)}
    {ipLen : Int} {node : List UInt8} (port : Int) (so : NetxSockaddr)
    (hnode : tempIp ip ipLen = some node) :
    ∃ ret so', netxGetSockaddrByString getaddrinfo ip ipLen port (some so) = some (ret, some so') ∧
      (Found (getaddrinfo node (toString port) hints).1
          (usableAddrinfo port (getaddrinfo node (toString port) hints).2) ret so' ↔
        (getaddrinfo node (toString port) hints).1 ≠ 0 ∨
          usableAddrinfo port (getaddrinfo node (toString port) hints).2 ≠ []) := by
  unfold netxGetSockaddrByString
  simp only [hnode, Option.bind_eq_bind, Option.bind_some, scanAddrinfo_eq, Option.or_none]
  by_cases hret : (getaddrinfo node (toString port) hints).1 = 0
  · refine ⟨_, _, if_neg (not_not.2 hret), ?_⟩
    rw [hret, found_storeFound_iff _ (fun e => family_usableAddrinfo) (picked_lastOf (.inl rfl))
      (picked_lastOf (.inr rfl))]
    simp only [ne_eq, not_true_eq_false, false_or]
  · refine ⟨_, _, if_pos hret, ?_⟩
    exact iff_of_true (found_of_failed _ hret) (.inl hret)

theorem netxGetLocalIp2Ifaddrs_found (getifaddrs : Int × List (Option Mem)) (so : NetxSockaddr) :
    ∃ ret so', netxGetLocalIp2Ifaddrs getifaddrs (some so) = (ret, some so') ∧
      (Found getifaddrs.1 (usableIfaddrs getifaddrs.2) ret so' ↔
        getifaddrs.1 ≠ 0 ∨ usableIfaddrs getifaddrs.2 ≠ []) := by
  unfold netxGetLocalIp2Ifaddrs
  simp only [scanIfaddrs_eq, Option.none_or]
  by_cases hret : getifaddrs.1 = 0
  · refine ⟨_, _, if_neg (not_not.2 hret), ?_⟩
    rw [hret, found_storeFound_iff _ (fun e => family_usableIfaddrs) picked_usableV4 picked_usableV6]
    simp only [ne_eq, not_true_eq_false, false_or]
  · refine ⟨_, _, if_pos hret, ?_⟩
    exact iff_of_true (found_of_failed _ hret) (.inl hret)

/-- **The address asked for** : what the two functions return and store is right exactly when the
library call fails or its list offers a usable address. -/
theorem sockaddrFound_iff (getaddrinfo : Getaddrinfo) {ip : Option (List UInt8)} {ipLen : Int}
    (port : Int) (getifaddrs : Int × List (Option Mem)) (so : NetxSockaddr)
    (hlen : ∀ s ∈ ip, 0 ≤ ipLen ∧ ipLen < 256 ∧ ipLen ≤ s.length) :
    (∃ node ret so', tempIp ip ipLen = some node ∧
      netxGetSockaddrByString getaddrinfo ip ipLen port (some so) = some (ret, some so') ∧
      (Found (getaddrinfo node (toString port) hints).1
          (usableAddrinfo port (getaddrinfo node (toString port) hints).2) ret so' ↔
        (getaddrinfo node (toString port) hints).1 ≠ 0 ∨
          usableAddrinfo port (getaddrinfo node (toString port) hints).2 ≠ [])) ∧
    ∃ ret so', netxGetLocalIp2Ifaddrs getifaddrs (some so) = (ret, some so') ∧
      (Found getifaddrs.1 (usableIfaddrs getifaddrs.2) ret so' ↔
        getifaddrs.1 ≠ 0 ∨ usableIfaddrs getifaddrs.2 ≠ []) := by
  obtain ⟨node, hnode⟩ := tempIp_isSome hlen
  obtain ⟨ret, so', hcall, hiff⟩ := netxGetSockaddrByString_found port so hnode
  exact ⟨⟨node, ret, so', hnode, hcall, hiff⟩, netxGetLocalIp2Ifaddrs_found getifaddrs so⟩

/-- A name that has an IPv4 address, and a machine whose second interface has one. -/
theorem sockaddrFound_iff_80 : ∃ so' so'',
    netxGetSockaddrByString (fun _ _ _ => (0, [⟨AF_INET, addr80⟩])) (some [0x61]) 1 80
      (some .zero) = some (0, some so') ∧
    Found 0 (usableAddrinfo 80 [⟨AF_INET, addr80⟩]) 0 so' ∧
    netxGetLocalIp2Ifaddrs (0, [none, some addr80]) (some .zero) = (0, some so'') ∧
    Found 0 (usableIfaddrs [none, some addr80]) 0 so'' := by
  have hv4 : usableV4 addr80 = true := by decide
  have hstring : usableAddrinfo 80 [⟨AF_INET, addr80⟩] ≠ [] :=
    List.ne_nil_of_mem (mem_usableAddrinfo.2 ⟨_, List.mem_singleton_self _, .inl rfl, rfl⟩)
  have hlocal : usableIfaddrs [none, some addr80] ≠ [] :=
    List.ne_nil_of_mem (mem_usableIfaddrs.2
      ⟨addr80, List.mem_of_getLast? rfl, .inl hv4, rfl⟩)
  obtain ⟨⟨node, ret, so', -, hcall, hiff⟩, ret', so'', hcall', hiff'⟩ :=
    sockaddrFound_iff (fun _ _ _ => (0, [⟨AF_INET, addr80⟩])) 80 (0, [none, some addr80]) .zero
      (show ∀ s ∈ some [(0x61 : UInt8)], 0 ≤ (1 : Int) ∧ (1 : Int) < 256 ∧ (1 : Int) ≤ s.length from by
        rintro s ⟨⟩
        decide)
  have hfound := hiff.2 (.inr hstring)
  have hfound' := hiff'.2 (.inr hlocal)
  obtain rfl := hfound.zero_iff.2 ⟨rfl, hstring⟩
  obtain rfl := hfound'.zero_iff.2 ⟨rfl, hlocal⟩
  exact ⟨so', so'', hcall, hfound, hcall', hfound'⟩

def AF_UNIX : Nat := 1

def loopback : Mem :=
  writeBytes (write16 zeroMem saFamily AF_INET) sinAddr (bytesLE sizeofInAddr 0x100007F)

/-- An answer of another family, and a machine with its loopback interface alone: both functions
return 0 without an address. -/
theorem sockaddrFound_none : ∃ so' so'',
    netxGetSockaddrByString (fun _ _ _ => (0, [⟨AF_UNIX, zeroMem⟩])) (some [0x61]) 1 80
      (some .zero) = some (0, some so') ∧
    ¬ Found 0 (usableAddrinfo 80 [⟨AF_UNIX, zeroMem⟩]) 0 so' ∧
    netxGetLocalIp2Ifaddrs (0, [some loopback]) (some .zero) = (0, some so'') ∧
    ¬ Found 0 (usableIfaddrs [some loopback]) 0 so'' := by
  refine ⟨_, _, rfl, fun h => ?_, rfl, fun h => ?_⟩
  · exact (h.zero_iff.1 rfl).2 rfl
  · obtain ⟨e, he⟩ := List.exists_mem_of_ne_nil _ (h.zero_iff.1 rfl).2
    obtain ⟨a, ha, hu, -⟩ := mem_usableIfaddrs.1 he
    obtain rfl := Option.some.inj (List.mem_singleton.1 ha)
    exact absurd hu (by decide)

end FwkMlib.Netx
