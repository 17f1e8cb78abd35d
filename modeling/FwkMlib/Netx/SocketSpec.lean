import FwkMlib.Netx.Socket

/-!
# What the calls of netx do to the open sockets

* `wp_socket`, `wp_setsockopt`, … : the rule of each call, on a socket that is open;
* `Opened s k ret s'` : either `-1` and no socket is left behind, or a socket that was not open before
  and is as `k` now;
* `netxOpen_opens`, `netxConnect_opens`, `netxAccept_opens` : each function that makes a socket does
  so, whatever the calls answer, and returns one where no call fails;
* `netxSetKeepalive_sets` : the options that are set up to the first one that fails.
-/

namespace FwkMlib.Netx
open FwkMlib.Lib

/-- The call did not fail; a connect may go on in the background. -/
def NetCall.succeeds : (c : NetCall) → c.Ans → Prop
  | .socket _ _, ret | .setsockopt _ _ _ _, ret | .fcntlSetfl _ _, ret | .bind _ _, ret
  | .listen _ _, ret => ret ≠ -1
  | .connect _ _, (ret, errno) => ret ≠ -1 ∨ errno = EINPROGRESS
  | .accept _, (ret, _) => ret ≠ -1
  | _, _ => True

variable {s s' : Fds} {fd ret : Int} {k k' : Socket} {α : Type}

namespace Fds

@[simp] theorem set_self (s : Fds) (fd : Int) (k : Socket) : s.set fd k fd = some k :=
  Function.update_self fd _ s

@[simp] theorem set_set (s : Fds) (fd : Int) (k k' : Socket) : (s.set fd k).set fd k' = s.set fd k' :=
  Function.update_idem _ _ s

@[simp] theorem unset_set (s : Fds) (fd : Int) (k : Socket) : (s.set fd k).unset fd = s.unset fd :=
  Function.update_idem _ _ s

theorem set_eq (h : s fd = some k) : s.set fd k = s := by
  rw [set, ← h, Function.update_eq_self]

theorem unset_eq (h : s fd = none) : s.unset fd = s := by
  rw [unset, ← h, Function.update_eq_self]

/-- A change of one open socket is refused or made. -/
theorem forall_changes {P : Int → Prop} {R : Socket → Prop} {f : Socket → Socket}
    {Q : Int → Fds → Prop} :
    (∀ ret s', (s.set fd k).Changes fd R f ret s' ∧ P ret → Q ret s') ↔
      (P (-1) → Q (-1) (s.set fd k)) ∧ (R k → P 0 → Q 0 (s.set fd (f k))) := by
  simp only [Changes, set_self, Option.some.injEq]
  constructor
  · intro h
    refine ⟨fun hP => h _ _ ⟨.inl ⟨rfl, rfl⟩, hP⟩, fun hR hP => ?_⟩
    exact h _ _ ⟨.inr ⟨k, rfl, hR, rfl, (set_set s fd k _).symm⟩, hP⟩
  · rintro ⟨hfail, hok⟩ ret s' ⟨⟨rfl, rfl⟩ | ⟨_, rfl, hR, rfl, rfl⟩, hP⟩
    · exact hfail hP
    · rw [set_set]
      exact hok hR hP

end Fds

/-! ## The rules of the calls -/

section rules

variable {P : (c : NetCall) → c.Ans → Prop} {Q : Int → Fds → Prop}

theorem wp_socket {family : Nat} {type : Int} :
    (socket family type).wp (kernel.only P) Q s ↔ (P (.socket family type) (-1) → Q (-1) s) ∧
      ∀ fd, 0 ≤ fd → s fd = none → P (.socket family type) fd → Q fd (s.set fd (.fresh family type)) := by
  constructor
  · rintro ⟨-, h⟩
    refine ⟨fun hP => h (-1) s ⟨.inl ⟨rfl, rfl⟩, hP⟩, fun fd h0 hs hP => ?_⟩
    exact h fd _ ⟨.inr ⟨h0, hs, rfl⟩, hP⟩
  · rintro ⟨hfail, hok⟩
    refine ⟨trivial, fun fd s' => ?_⟩
    rintro ⟨⟨rfl, rfl⟩ | ⟨h0, hs, rfl⟩, hP⟩
    · exact hfail hP
    · exact hok fd h0 hs hP

theorem isSome_set (s : Fds) (fd : Int) (k : Socket) : ((s.set fd k) fd).isSome := by
  rw [Fds.set_self]
  rfl

theorem wp_setsockopt {level optname : Nat} {value : Int} :
    (setsockopt fd level optname value).wp (kernel.only P) Q (s.set fd k) ↔
      (P (.setsockopt fd level optname value) (-1) → Q (-1) (s.set fd k)) ∧
      (P (.setsockopt fd level optname value) 0 → Q 0 (s.set fd (k.setOpt level optname value))) := by
  refine (and_iff_right (isSome_set s fd k)).trans (Fds.forall_changes.trans ?_)
  rw [forall_prop_of_true trivial]
  exact Iff.rfl

theorem wp_bind {addr : SockaddrIn} :
    (bind fd addr).wp (kernel.only P) Q (s.set fd k) ↔
      (P (.bind fd addr) (-1) → Q (-1) (s.set fd k)) ∧
      (k.family = addr.sinFamily → P (.bind fd addr) 0 →
        Q 0 (s.set fd { k with bound := some addr })) :=
  (and_iff_right (isSome_set s fd k)).trans Fds.forall_changes

theorem wp_listen {backlog : Nat} :
    (listen fd backlog).wp (kernel.only P) Q (s.set fd k) ↔
      (P (.listen fd backlog) (-1) → Q (-1) (s.set fd k)) ∧
      (P (.listen fd backlog) 0 → Q 0 (s.set fd { k with backlog := some backlog })) := by
  refine (and_iff_right (isSome_set s fd k)).trans (Fds.forall_changes.trans ?_)
  rw [forall_prop_of_true trivial]
  exact Iff.rfl

/-- The flags that were read keep `O_NONBLOCK`, also where reading them failed. -/
theorem wp_setNonblock
    (hfail : ∀ flags, P (.fcntlSetfl fd flags) (-1) → Q (-1) (s.set fd k))
    (hok : Q 0 (s.set fd { k with nonblock := true })) :
    (setNonblock fd).wp (kernel.only P) Q (s.set fd k) := by
  refine ⟨isSome_set s fd k, fun flags s' hs' => ?_⟩
  obtain rfl : s' = s.set fd k := hs'.1
  refine ⟨isSome_set s fd k, Fds.forall_changes.2 ⟨hfail _, fun _ _ => ?_⟩⟩
  have hbit : (flags ||| O_NONBLOCK).getLsbD 11 = true := by
    rw [BitVec.getLsbD_or]
    exact Bool.or_eq_true_iff.2 (.inr rfl)
  rw [hbit]
  exact hok

theorem wp_closeIf {failed : Prop} [Decidable failed] {κ : Net Int}
    (hfail : failed → Q (-1) (s.unset fd))
    (hok : ¬ failed → κ.wp (kernel.only P) Q (s.set fd k)) :
    (closeIf failed fd κ).wp (kernel.only P) Q (s.set fd k) := by
  unfold closeIf
  split_ifs with h
  · refine ⟨isSome_set s fd k, fun ret s' hs' => ?_⟩
    obtain rfl : s' = (s.set fd k).unset fd := hs'.1
    rw [Fds.unset_set]
    exact hfail h
  · exact hok h

end rules

/-- A function that makes a socket returned `ret` : none is left behind a `-1`, and any other result is
a socket that was not open before and is as `k` now. -/
def Opened (s : Fds) (k : Socket) (ret : Int) (s' : Fds) : Prop :=
  (ret = -1 ∧ s' = s) ∨ (0 ≤ ret ∧ s ret = none ∧ s' = s.set ret k)

/-- No call fails. -/
def Reliable (P : (c : NetCall) → c.Ans → Prop) : Prop := ∀ c x, P c x → c.succeeds x

/-- The same, where the calls answer among `P` : a socket it is if no call fails. -/
def Returns (P : (c : NetCall) → c.Ans → Prop) (s : Fds) (k : Socket) (ret : Int) (s' : Fds) : Prop :=
  Opened s k ret s' ∧ (Reliable P → 0 ≤ ret)

theorem Returns.failed {P : (c : NetCall) → c.Ans → Prop} (h : ¬ Reliable P) :
    Returns P s k (-1) s :=
  ⟨.inl ⟨rfl, rfl⟩, fun hP => absurd hP h⟩

theorem Returns.opened {P : (c : NetCall) → c.Ans → Prop} (h0 : 0 ≤ fd) (hs : s fd = none) :
    Returns P s k fd (s.set fd k) :=
  ⟨.inr ⟨h0, hs, rfl⟩, fun _ => h0⟩

theorem Returns.split {p : Net Int} (h : ∀ P, p.wp (kernel.only P) (Returns P s k) s) :
    p.wp kernel (Opened s k) s ∧ p.wp (kernel.only NetCall.succeeds) (fun ret _ => 0 ≤ ret) s := by
  constructor
  · rw [← System.only_true kernel]
    exact Script.wp_mono (fun _ _ h => h.1) (h _)
  · exact Script.wp_mono (fun _ _ h => h.2 fun _ _ hx => hx) (h _)

/-- A part of such a function works on the open socket `fd` : it fails, or leaves it as `k'`. -/
def Works (P : (c : NetCall) → c.Ans → Prop) (fd : Int) (p : Net Int) (k k' : Socket) : Prop :=
  ∀ s : Fds, p.wp (kernel.only P) (fun ret t =>
    (ret = -1 ∧ ¬ Reliable P ∧ ∃ k'', t = s.set fd k'') ∨ (ret = 0 ∧ t = s.set fd k')) (s.set fd k)

namespace Works

variable {P : (c : NetCall) → c.Ans → Prop} {p : Net Int} {level optname backlog : Nat} {value : Int}
  {addr : SockaddrIn}

theorem setsockopt : Works P fd (setsockopt fd level optname value) k (k.setOpt level optname value) := by
  intro s
  refine wp_setsockopt.2 ⟨fun hP => .inl ⟨rfl, fun h => h _ _ hP rfl, k, rfl⟩, fun _ => .inr ⟨rfl, rfl⟩⟩

theorem bind : Works P fd (bind fd addr) k { k with bound := some addr } := by
  intro s
  refine wp_bind.2 ⟨fun hP => .inl ⟨rfl, fun h => h _ _ hP rfl, k, rfl⟩, fun _ _ => .inr ⟨rfl, rfl⟩⟩

theorem bind_ne (hk : k.family ≠ addr.sinFamily) (k' : Socket) :
    Works P fd (Netx.bind fd addr) k k' := by
  intro s
  refine wp_bind.2 ⟨fun hP => .inl ⟨rfl, fun h => h _ _ hP rfl, k, rfl⟩, fun h => absurd h hk⟩

theorem listen : Works P fd (listen fd backlog) k { k with backlog := some backlog } := by
  intro s
  refine wp_listen.2 ⟨fun hP => .inl ⟨rfl, fun h => h _ _ hP rfl, k, rfl⟩, fun _ => .inr ⟨rfl, rfl⟩⟩

theorem setNonblock : Works P fd (setNonblock fd) k { k with nonblock := true } := by
  intro s
  apply wp_setNonblock
  · exact fun flags hP => .inl ⟨rfl, fun h => h _ _ hP rfl, k, rfl⟩
  · exact .inr ⟨rfl, rfl⟩

/-- A part that is left out in some cases. -/
theorem ite {c : Prop} [Decidable c] (h : c → Works P fd p k k') :
    Works P fd (callIf c p) k (if c then k' else k) := by
  intro s
  unfold callIf
  split_ifs with hc
  · exact h hc s
  · exact .inr ⟨rfl, rfl⟩

theorem of_pos {c : Prop} [Decidable c] (hc : c) (h : Works P fd p k k') :
    Works P fd (callIf c p) k k' := by
  unfold callIf
  rwa [if_pos hc]

/-- A check that tells `-1` from `0` closes the socket behind the part that fails. -/
theorem closeIf (failed : Int → Prop) [DecidablePred failed] (hfail : failed (-1)) (hok : ¬ failed 0)
    {κ : Net Int} {K : Socket} (h : Works P fd p k k') (hs : s fd = none)
    (hκ : κ.wp (kernel.only P) (Returns P s K) (s.set fd k')) :
    (p.bind fun ret => closeIf (failed ret) fd κ).wp (kernel.only P) (Returns P s K) (s.set fd k) := by
  apply Script.wp_seq (h s)
  rintro ret t (⟨rfl, hP, k'', rfl⟩ | ⟨rfl, rfl⟩)
  · apply wp_closeIf
    · intro _
      rw [Fds.unset_eq hs]
      exact .failed hP
    · exact fun h => absurd hfail h
  · apply wp_closeIf
    · exact fun h => absurd h hok
    · exact fun _ => hκ

theorem closeIf_neg {κ : Net Int} {K : Socket} (h : Works P fd p k k') (hs : s fd = none)
    (hκ : κ.wp (kernel.only P) (Returns P s K) (s.set fd k')) :
    (p.bind fun ret => Netx.closeIf (ret < 0) fd κ).wp (kernel.only P) (Returns P s K) (s.set fd k) :=
  closeIf (· < 0) (by decide) (by decide) h hs hκ

theorem closeIf_ne {κ : Net Int} {K : Socket} (h : Works P fd p k k') (hs : s fd = none)
    (hκ : κ.wp (kernel.only P) (Returns P s K) (s.set fd k')) :
    (p.bind fun ret => Netx.closeIf (ret ≠ 0) fd κ).wp (kernel.only P) (Returns P s K) (s.set fd k) :=
  closeIf (· ≠ 0) (by decide) (by decide) h hs hκ

end Works

/-! ## `netx_open` -/

def openedSocket (type : Int) (ip : Option UInt32) (port flag : Nat) : Socket :=
  let k := Socket.fresh AF_INET type
  let k := if port ≠ 0 ∧ flag &&& netxOpenFlagReuseAddr ≠ 0 then k.setOpt SOL_SOCKET SO_REUSEADDR 1 else k
  let k := { k with nonblock := true }
  let k := if port ≠ 0 ∨ ip.getD 0 ≠ 0 then { k with bound := some ⟨AF_INET, ntohs port, ip.getD 0⟩ } else k
  if type = SOCK_STREAM then { k with backlog := some 32 } else k

theorem netxOpen_returns (P : (c : NetCall) → c.Ans → Prop) (s : Fds) (type : Int) (ip : Option UInt32)
    (port flag : Nat) :
    (netxOpen type ip port flag).wp (kernel.only P)
      (Returns P s (openedSocket type ip port flag)) s := by
  unfold netxOpen
  simp only [Script.bind_eq, Script.pure_eq]
  rw [Script.wp_bind]
  refine wp_socket.2 ⟨fun hP => ?_, fun fd h0 hs _ => ?_⟩
  · rw [if_pos (by decide)]
    exact .failed fun h => h _ _ hP rfl
  · rw [if_neg (by omega)]
    apply (Works.ite fun _ => .setsockopt).closeIf_neg hs
    apply Works.setNonblock.closeIf_ne hs
    apply (Works.ite fun _ => .bind).closeIf_neg hs
    apply (Works.ite fun _ => .listen).closeIf_neg hs
    exact .opened h0 hs

/-- **`netx_open`** : whatever the calls answer, `-1` leaves no socket behind, and any other result is a
new socket, non-blocking, bound and listening as asked for. Without a failing call it is a socket. -/
theorem netxOpen_opens (s : Fds) (type : Int) (ip : Option UInt32) (port flag : Nat) :
    (netxOpen type ip port flag).wp kernel (Opened s (openedSocket type ip port flag)) s ∧
    (netxOpen type ip port flag).wp (kernel.only NetCall.succeeds) (fun ret _ => 0 ≤ ret) s :=
  Returns.split fun P => netxOpen_returns P s type ip port flag

/-! ## `netx_connect` -/

def connectedSocket (addr : SockaddrIn) (localAddr : Option SockaddrIn) : Socket :=
  let k := { Socket.fresh AF_INET SOCK_STREAM with nonblock := true }
  let k := match localAddr with
    | none => k
    | some localAddr => { k.setOpt SOL_SOCKET SO_REUSEADDR 1 with bound := some localAddr }
  { k with peer := some addr }

theorem Works.bindLocal {P : (c : NetCall) → c.Ans → Prop} (localAddr : Option SockaddrIn) :
    Works P fd (bindLocal fd localAddr) k (match localAddr with
      | none => k
      | some localAddr => { k.setOpt SOL_SOCKET SO_REUSEADDR 1 with bound := some localAddr }) := by
  intro s
  cases localAddr with
  | none => exact .inr ⟨rfl, rfl⟩
  | some localAddr =>
    apply Script.wp_seq (Works.setsockopt s)
    rintro ret t (⟨rfl, hP, k'', rfl⟩ | ⟨rfl, rfl⟩)
    · exact .inl ⟨rfl, hP, k'', rfl⟩
    · exact Works.bind s

theorem wp_connect {P : (c : NetCall) → c.Ans → Prop} {Q : Int × Int → Fds → Prop} {addr : SockaddrIn}
    (hfail : ∀ errno, errno ≠ EINPROGRESS → P (.connect fd addr) (-1, errno) →
      Q (-1, errno) (s.set fd k))
    (hok : ∀ ret errno, ret = 0 ∨ (ret = -1 ∧ errno = EINPROGRESS ∧ k.type = SOCK_STREAM) →
      Q (ret, errno) (s.set fd { k with peer := some addr })) :
    (connect fd addr).wp (kernel.only P) Q (s.set fd k) := by
  refine ⟨isSome_set s fd k, fun ⟨ret, errno⟩ s' hs' => ?_⟩
  obtain ⟨⟨rfl, herrno, rfl⟩ | ⟨k₁, hk₁, rfl, hret⟩, hP⟩ := hs'
  · exact hfail errno herrno hP
  · rw [Fds.set_self] at hk₁
    obtain rfl := Option.some.inj hk₁
    rw [Fds.set_set]
    exact hok ret errno (hret.imp_right fun h => ⟨h.1, h.2.1, h.2.2.2⟩)

theorem netxConnectByAddr_returns (P : (c : NetCall) → c.Ans → Prop) (s : Fds) (addr : SockaddrIn)
    (localAddr : Option SockaddrIn) :
    (netxConnectByAddr addr localAddr).wp (kernel.only P)
      (Returns P s (connectedSocket addr localAddr)) s := by
  unfold netxConnectByAddr
  simp only [Script.bind_eq, Script.pure_eq]
  rw [Script.wp_bind]
  refine wp_socket.2 ⟨fun hP => ?_, fun fd h0 hs _ => ?_⟩
  · rw [if_pos (by decide)]
    exact .failed fun h => h _ _ hP rfl
  · rw [if_neg (by omega)]
    apply Works.setNonblock.closeIf_ne hs
    apply (Works.bindLocal localAddr).closeIf_neg hs
    rw [Script.wp_bind]
    apply wp_connect
    · intro errno herrno hP
      apply wp_closeIf
      · intro _
        rw [Fds.unset_eq hs]
        exact .failed fun h => (h _ _ hP).elim (absurd rfl) (absurd · herrno)
      · exact fun h => absurd ⟨(by decide : (-1 : Int) < 0), herrno.symm⟩ h
    · intro ret errno hret
      apply wp_closeIf
      · rintro ⟨hneg, hne⟩
        rcases hret with rfl | ⟨-, rfl, -⟩
        · exact absurd hneg (Int.lt_irrefl 0)
        · exact absurd rfl hne
      · exact fun _ => .opened h0 hs

/-- **`netx_connect_by_addr`** : `-1` leaves no socket behind, and any other result is a new non-blocking
socket on its way to `addr`, bound to the local address if there is one. -/
theorem netxConnectByAddr_opens (s : Fds) (addr : SockaddrIn) (localAddr : Option SockaddrIn) :
    (netxConnectByAddr addr localAddr).wp kernel (Opened s (connectedSocket addr localAddr)) s ∧
    (netxConnectByAddr addr localAddr).wp (kernel.only NetCall.succeeds) (fun ret _ => 0 ≤ ret) s :=
  Returns.split fun P => netxConnectByAddr_returns P s addr localAddr

/-! ## `netx_accept` -/

/-- The socket that `netx_accept` makes out of a listening one. -/
def acceptedSocket (k : Socket) (peer : SockaddrIn) : Socket :=
  { Socket.fresh k.family k.type with peer := some peer, nonblock := true }

theorem netxAccept_returns (P : (c : NetCall) → c.Ans → Prop) (hk : s fd = some k) :
    (netxAccept fd).wp (kernel.only P) (fun r s' => Returns P s (acceptedSocket k r.2) r.1 s' ∧
      (0 ≤ r.1 → k.backlog.isSome)) s := by
  unfold netxAccept
  simp only [Script.bind_eq, Script.pure_eq]
  rw [Script.wp_bind]
  refine ⟨by show (s fd).isSome = true; rw [hk]; rfl, fun ⟨acptFd, peer⟩ s' hs' => ?_⟩
  obtain ⟨⟨rfl, rfl⟩ | ⟨k₁, hk₁, hlisten, h0, hs, rfl⟩, hP⟩ := hs'
  · exact ⟨.failed fun h => h _ _ hP rfl, fun h : (0 : Int) ≤ -1 => absurd h (by decide)⟩
  · obtain rfl := Option.some.inj (hk.symm.trans hk₁)
    show Script.wp _ (if acptFd < 0 then _ else _) _ _
    have hnew : (Script.ret acptFd : Net Int).wp (kernel.only P)
        (Returns P s (acceptedSocket k peer)) (s.set acptFd (acceptedSocket k peer)) := .opened h0 hs
    have hset := Works.setNonblock.closeIf_ne hs hnew
      (k := { Socket.fresh k.family k.type with peer := some peer })
    rw [if_neg (by omega), ← Script.bind_assoc, Script.wp_bind]
    exact Script.wp_mono (fun ret t h => ⟨h, fun _ => hlisten⟩) hset

/-- A socket that listens, the only one that is open. -/
def listening : Socket := { Socket.fresh AF_INET SOCK_STREAM with backlog := some 5 }

def onlyListening : Fds := Fds.set (fun _ => none) 3 listening

/-! ## `netx_set_keepalive` -/

def Socket.setOpts (k : Socket) (opts : List (Nat × Nat × Int × String)) : Socket :=
  opts.foldl (fun k o => k.setOpt o.1 o.2.1 o.2.2.1) k

/-- Options are set in their order, up to the first that fails; that one is named. -/
def OptionsSet (s : Fds) (fd : Int) (k : Socket) (opts : List (Nat × Nat × Int × String))
    (r : Int × Option String) (s' : Fds) : Prop :=
  (r = (0, none) ∧ s' = s.set fd (k.setOpts opts)) ∨
    ∃ before o after, opts = before ++ o :: after ∧ r = (-1, some o.2.2.2) ∧
      s' = s.set fd (k.setOpts before)

theorem setOptions_sets (P : (c : NetCall) → c.Ans → Prop) (fd : Int) (opts : List (Nat × Nat × Int × String)) :
    ∀ (s : Fds) (k : Socket), (setOptions fd opts).wp (kernel.only P) (fun r s' =>
      OptionsSet s fd k (opts.filter fun o => o.2.2.1 ≠ 0) r s' ∧ (Reliable P → r.1 = 0)) (s.set fd k) := by
  induction opts with
  | nil => exact fun s k => ⟨.inl ⟨rfl, rfl⟩, fun _ => rfl⟩
  | cons o opts ih =>
    obtain ⟨level, optname, value, name⟩ := o
    intro s k
    rw [setOptions, List.filter_cons]
    by_cases hv : value = 0
    · rw [if_pos hv, if_neg (by simpa using hv)]
      exact ih s k
    · rw [if_neg hv, if_pos (by simpa using hv)]
      simp only [Script.bind_eq, Script.pure_eq]
      rw [Script.wp_bind]
      refine wp_setsockopt.2 ⟨fun hP => ?_, fun _ => ?_⟩
      · rw [if_pos (by decide)]
        exact ⟨.inr ⟨[], _, _, rfl, rfl, rfl⟩, fun h => absurd rfl (h _ _ hP)⟩
      · rw [if_neg (by decide)]
        apply Script.wp_mono _ (ih s (k.setOpt level optname value))
        rintro r t ⟨⟨hr, rfl⟩ | ⟨before, o, after, hsplit, hr, rfl⟩, hP⟩
        · exact ⟨.inl ⟨hr, rfl⟩, hP⟩
        · exact ⟨.inr ⟨_ :: before, o, after, by rw [hsplit]; rfl, hr, rfl⟩, hP⟩

/-- **`netx_set_keepalive`** on a socket that is open: the options whose value is not `0` are set in
their order, up to the first that fails, which is the one that the error line names. -/
theorem netxSetKeepalive_sets (hk : s fd = some k) (idleMs intervalMs times : Int) :
    (netxSetKeepalive fd idleMs intervalMs times).wp kernel (OptionsSet s fd k
      ((keepaliveOptions idleMs intervalMs times).filter fun o => o.2.2.1 ≠ 0)) s ∧
    (netxSetKeepalive fd idleMs intervalMs times).wp (kernel.only NetCall.succeeds)
      (fun r _ => r.1 = 0) s := by
  have h := fun P => setOptions_sets P fd (keepaliveOptions idleMs intervalMs times) s k
  rw [Fds.set_eq hk] at h
  constructor
  · rw [← System.only_true kernel]
    exact Script.wp_mono (fun _ _ h => h.1) (h _)
  · exact Script.wp_mono (fun _ _ h => h.2 fun _ _ hx => hx) (h _)

/-- Half a second rounds to `0`, and the idle time is left as it is. -/
theorem netxSetKeepalive_sets_listening :
    (netxSetKeepalive 3 500 0 5).wp kernel (OptionsSet onlyListening 3 listening
      ((keepaliveOptions 500 0 5).filter fun o => o.2.2.1 ≠ 0)) onlyListening ∧
    (netxSetKeepalive 3 500 0 5).wp (kernel.only NetCall.succeeds) (fun r _ => r.1 = 0)
      onlyListening :=
  netxSetKeepalive_sets (Fds.set_self _ 3 listening) 500 0 5

end FwkMlib.Netx
