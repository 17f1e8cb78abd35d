import FwkMlib.Netx.Reach

/-!
# Sequences of `netx_ctl` calls

`netxCtl_refines_fdMap` : a poll object made by `netx_create` behaves, under any sequence of
`netx_ctl` calls, as an ordered map from fds to events of capacity `min(max_counts, FD_SETSIZE)`
(`CtlStep` spells out when a call succeeds and what it does), and its links stay well formed.
-/

namespace FwkMlib.Netx
open FwkMlib.Lib NetxPoll

/-- The arguments of a `netx_ctl` call behind the handle. -/
structure CtlCall where
  operation : Nat
  fd : Int
  event : Option NetxEvent

/-- The calls of a list, in order, on one handle: their return values and the last table. -/
def ctlRun (poll : Int) : List CtlCall → NetxPolls → Option (List Int × NetxPolls)
  | [], polls => some ([], polls)
  | c :: cs, polls => do
    let (ret, polls) ← netxCtl polls poll c.operation c.fd c.event
    let (rets, polls) ← ctlRun poll cs polls
    some (ret :: rets, polls)

theorem Reachable.ctlRun {poll : Int} {cs : List CtlCall} : ∀ {polls polls' : NetxPolls}
    {rets : List Int}, Reachable polls → Netx.ctlRun poll cs polls = some (rets, polls') →
    Reachable polls' := by
  induction cs with
  | nil => intro polls polls' rets h hrun; cases hrun; exact h
  | cons c cs ih =>
    intro polls polls' rets h hrun
    unfold Netx.ctlRun at hrun
    obtain ⟨⟨ret, polls₁⟩, hc, hrun⟩ := Option.bind_eq_some_iff.1 hrun
    obtain ⟨⟨rets', polls₂⟩, hrun, hr⟩ := Option.bind_eq_some_iff.1 hrun
    cases hr
    exact ih (h.ctl hc) hrun

namespace FdMap

variable {cap : Nat}

/-- The map after a call; a refused call leaves it as it is. -/
def step (m : FdMap cap) (c : CtlCall) : FdMap cap := (m.ctl c.operation c.fd c.event).getD m

def run (cs : List CtlCall) (m : FdMap cap) : FdMap cap := cs.foldl step m

def accepts : List CtlCall → FdMap cap → List Bool
  | [], _ => []
  | c :: cs, m => (m.ctl c.operation c.fd c.event).isSome :: accepts cs (m.step c)

end FdMap

/-- One `netx_ctl` call that turns the registrations `l` into `l'` and returns `ret`. -/
structure CtlStep (cap : Nat) (l l' : List (Int × NetxEvent)) (c : CtlCall) (ret : Int) : Prop where
  code : ret = 0 ∨ ret < 0
  refused : ret < 0 → l' = l
  add : c.operation = netxCtlAdd →
    (ret = 0 ↔ 0 ≤ c.fd ∧ c.event.isSome ∧ c.fd ∉ l.map Prod.fst ∧ l.length < cap) ∧
    ∀ event, c.event = some event → ret = 0 → l' = l ++ [(c.fd, event)]
  mod : c.operation = netxCtlMod →
    (ret = 0 ↔ c.event.isSome ∧ c.fd ∈ l.map Prod.fst) ∧
    ∀ event, c.event = some event → ret = 0 → l' = l.map (OrdMap.replace c.fd event)
  del : c.operation = netxCtlDel →
    (ret = 0 ↔ c.fd ∈ l.map Prod.fst) ∧ (ret = 0 → l' = l.filter fun e => e.1 ≠ c.fd)
  unknown : c.operation ≠ netxCtlAdd → c.operation ≠ netxCtlMod → c.operation ≠ netxCtlDel → ret < 0

namespace FdMap

variable {cap : Nat} {m m' : FdMap cap} {fd : Int} {event : Option NetxEvent}

theorem ctl_add : m.ctl netxCtlAdd fd event = if 0 ≤ fd then event.bind (m.insert? fd) else none :=
  rfl

theorem ctl_mod : m.ctl netxCtlMod fd event = event.bind (m.modify? fd) := rfl

theorem ctl_del : m.ctl netxCtlDel fd event = m.erase? fd := rfl

theorem ctl_unknown {operation : Nat} (h₁ : operation ≠ netxCtlAdd) (h₂ : operation ≠ netxCtlMod)
    (h₃ : operation ≠ netxCtlDel) : m.ctl operation fd event = none := by
  unfold ctl
  rw [if_neg h₁, if_neg h₂, if_neg h₃]

/-- A return value that tells whether the map accepts the call makes the map's step a `CtlStep`. -/
theorem ctlStep (m : FdMap cap) (c : CtlCall) {ret : Int}
    (hsome : (m.ctl c.operation c.fd c.event).isSome → ret = 0)
    (hnone : m.ctl c.operation c.fd c.event = none → ret < 0) :
    CtlStep cap m.entries (m.step c).entries c ret := by
  have hiff : ret = 0 ↔ (m.ctl c.operation c.fd c.event).isSome := by
    refine ⟨fun h0 => ?_, hsome⟩
    by_contra hn
    have := hnone (Option.not_isSome_iff_eq_none.1 hn)
    omega
  have hstep : ∀ m', m.ctl c.operation c.fd c.event = some m' → m.step c = m' := fun m' h => by
    rw [step, h, Option.getD_some]
  obtain ⟨operation, fd, event⟩ := c
  refine ⟨?_, fun hneg => ?_, ?_, ?_, ?_, fun h₁ h₂ h₃ => hnone (ctl_unknown h₁ h₂ h₃)⟩
  · cases h : m.ctl operation fd event with
    | none => exact .inr (hnone h)
    | some m' => exact .inl (hsome (by rw [h]; rfl))
  · cases h : m.ctl operation fd event with
    | none => rw [step, h, Option.getD_none]
    | some m' => exact absurd (hsome (by rw [h]; rfl)) (by omega)
  · intro (hop : operation = netxCtlAdd)
    subst hop
    dsimp only at hiff hstep ⊢
    rw [hiff, ctl_add]
    refine ⟨?_, fun ev hev h0 => ?_⟩
    · cases event with
      | none => simp
      | some ev =>
        by_cases hfd : 0 ≤ fd
        · rw [if_pos hfd, Option.bind_some, OrdMap.isSome_insert?]
          simp [hfd, OrdMap.keys]
        · simp [hfd]
    · subst hev
      obtain ⟨m', hm'⟩ := Option.isSome_iff_exists.1 h0
      have hfd : 0 ≤ fd := by
        by_contra hfd
        rw [if_neg hfd] at hm'
        cases hm'
      rw [hstep m' hm']
      rw [if_pos hfd, Option.bind_some] at hm'
      exact (OrdMap.insert?_eq_some.1 hm').2.2
  · intro (hop : operation = netxCtlMod)
    subst hop
    dsimp only at hiff hstep ⊢
    rw [hiff, ctl_mod]
    refine ⟨?_, fun ev hev h0 => ?_⟩
    · cases event with
      | none => simp
      | some ev =>
        rw [Option.bind_some, OrdMap.isSome_modify?]
        simp [OrdMap.keys]
    · subst hev
      obtain ⟨m', hm'⟩ := Option.isSome_iff_exists.1 h0
      rw [hstep m' hm']
      exact (OrdMap.modify?_eq_some.1 hm').2
  · intro (hop : operation = netxCtlDel)
    subst hop
    dsimp only at hiff hstep ⊢
    rw [hiff, ctl_del]
    refine ⟨OrdMap.isSome_erase?, fun h0 => ?_⟩
    obtain ⟨m', hm'⟩ := Option.isSome_iff_exists.1 h0
    rw [hstep m' hm']
    exact (OrdMap.erase?_eq_some.1 hm').2

end FdMap

/-! ## Calls through a handle -/

/-- A live handle stands for a poll object that holds exactly the registrations of `m`. -/
def HandleRepresents (polls : NetxPolls) (poll : Int) {cap : Nat} (m : FdMap cap) : Prop :=
  ∃ p, polls.lookup poll = some p ∧ p.Represents m

theorem netxCtl_simulates {polls : NetxPolls} {poll : Int} {cap : Nat} {m : FdMap cap}
    (h : HandleRepresents polls poll m) (c : CtlCall) :
    ∃ ret polls', netxCtl polls poll c.operation c.fd c.event = some (ret, polls') ∧
      HandleRepresents polls' poll (m.step c) ∧
      ((m.ctl c.operation c.fd c.event).isSome → ret = 0) ∧
      (m.ctl c.operation c.fd c.event = none → ret < 0 ∧ polls' = polls) := by
  obtain ⟨operation, fd, event⟩ := c
  obtain ⟨p, hl, hrep⟩ := h
  have hself : HandleRepresents polls poll m := ⟨p, hl, hrep⟩
  unfold netxCtl FdMap.step
  rw [hl]
  dsimp only
  by_cases hbad : fd < 0 ∨ (netxCtlDel ≠ operation ∧ event = none)
  · -- the parameter check refuses what the map has no key or no value for
    have hnone : m.ctl operation fd event = none := by
      obtain ⟨used, hi, -, hm⟩ := hrep
      rcases hbad with hfd | ⟨hop, rfl⟩
      · have hkey : fd ∉ m.keys := by
          rw [keys_eq hm]
          intro hk
          obtain ⟨j, hj, rfl⟩ := List.mem_map.1 hk
          exact absurd (hi.fdNonneg j hj) (by omega)
        unfold FdMap.ctl
        rw [if_neg (by omega : ¬ 0 ≤ fd)]
        split_ifs
        · rfl
        · cases event with
          | none => rfl
          | some ev => exact Option.not_isSome_iff_eq_none.1 fun hs => hkey (OrdMap.isSome_modify?.1 hs)
        · exact Option.not_isSome_iff_eq_none.1 fun hs => hkey (OrdMap.isSome_erase?.1 hs)
        · rfl
      · unfold FdMap.ctl
        rw [if_neg (Ne.symm hop)]
        split_ifs <;> rfl
    refine ⟨-1, polls, by rw [if_pos hbad], ?_, ?_, fun _ => ⟨by decide, rfl⟩⟩
    · rw [hnone]; exact hself
    · rw [hnone]; intro hs; cases hs
  · obtain ⟨hfd, hev⟩ := not_or.1 hbad
    obtain ⟨r, q, hrun, hans⟩ := ctl_simulates hrep (Int.not_lt.1 hfd) (del_or_event hev)
    refine ⟨r, polls.setSlot (poll.toNat - 1) (some q), by rw [if_neg hbad, hrun]; rfl, ?_⟩
    unfold Answers at hans
    cases hm : m.ctl operation fd event with
    | none =>
      rw [hm] at hans
      obtain ⟨hneg, rfl⟩ := hans
      rw [NetxPolls.setSlot_self (NetxPolls.lookup_eq_some.1 hl).2]
      exact ⟨hself, fun hs => absurd hs (by simp), fun _ => ⟨hneg, rfl⟩⟩
    | some m' =>
      rw [hm] at hans
      exact ⟨⟨q, NetxPolls.lookup_setSlot hl q, hans.2⟩, fun _ => hans.1, fun hn => absurd hn (by simp)⟩

theorem ctlRun_simulates {poll : Int} {cap : Nat} : ∀ (cs : List CtlCall) {polls : NetxPolls}
    {m : FdMap cap}, HandleRepresents polls poll m →
      ∃ rets polls', ctlRun poll cs polls = some (rets, polls') ∧
        HandleRepresents polls' poll (FdMap.run cs m) ∧
        rets.map (fun ret => decide (ret = 0)) = FdMap.accepts cs m := by
  intro cs
  induction cs with
  | nil => exact fun h => ⟨[], _, rfl, h, rfl⟩
  | cons c cs ih =>
    intro polls m h
    obtain ⟨ret, polls₁, hctl, hrep, hsome, hnone⟩ := netxCtl_simulates h c
    obtain ⟨rets, polls₂, hrun, hrep', hacc⟩ := ih hrep
    refine ⟨ret :: rets, polls₂, by rw [ctlRun, hctl]; simp [hrun], hrep', ?_⟩
    rw [List.map_cons, hacc, FdMap.accepts]
    congr 1
    cases hm : m.ctl c.operation c.fd c.event with
    | none => simp [Int.ne_of_lt (hnone hm).1]
    | some m' => simp [hsome (by rw [hm]; rfl)]

/-- **`netx_ctl` refines the ordered map**: any calls on a created poll object are answered as the
map of capacity `min(max_counts, FD_SETSIZE)` answers them, every further call is a `CtlStep`, and
the links are well formed throughout. -/
theorem netxCtl_refines_fdMap {polls polls₀ : NetxPolls} (hreach : Reachable polls)
    {maxCounts : Nat} {listOk pollOk : Bool} {handle : Int}
    (hc : netxCreate polls maxCounts listOk pollOk = (handle, polls₀)) (hpos : 0 < handle)
    (calls : List CtlCall) :
    ∃ rets polls' p used, ctlRun handle calls polls₀ = some (rets, polls') ∧
      polls'.lookup handle = some p ∧ PollInv p used ∧ p.maxCounts = min maxCounts FD_SETSIZE ∧
      p.entries used =
        (FdMap.run calls (OrdMap.empty : FdMap (min maxCounts FD_SETSIZE))).entries ∧
      rets.map (fun ret => decide (ret = 0)) =
        FdMap.accepts calls (OrdMap.empty : FdMap (min maxCounts FD_SETSIZE)) ∧
      ∀ c : CtlCall, ∃ ret polls'' p' used',
        netxCtl polls' handle c.operation c.fd c.event = some (ret, polls'') ∧
        polls''.lookup handle = some p' ∧ PollInv p' used' ∧
        CtlStep (min maxCounts FD_SETSIZE) (p.entries used) (p'.entries used') c ret ∧
        (ret < 0 → polls'' = polls') := by
  obtain ⟨hmax, hl₀⟩ := lookup_create hreach.inv hc hpos
  have hcap : 1 ≤ min maxCounts FD_SETSIZE := by unfold FD_SETSIZE; omega
  have hrep₀ : HandleRepresents polls₀ handle
      (OrdMap.empty : FdMap (min maxCounts FD_SETSIZE)) :=
    ⟨_, hl₀, [], initPoll_inv hcap, rfl, rfl⟩
  obtain ⟨rets, polls', hrun, hrep, hacc⟩ := ctlRun_simulates calls hrep₀
  obtain ⟨p, hl, used, hi, hmaxp, hm⟩ := id hrep
  refine ⟨rets, polls', p, used, hrun, hl, hi, hmaxp, hm, hacc, fun c => ?_⟩
  obtain ⟨ret, polls'', hctl, hrep', hsome, hnone⟩ := netxCtl_simulates hrep c
  obtain ⟨p', hl', used', hi', -, hm'⟩ := hrep'
  refine ⟨ret, polls'', p', used', hctl, hl', hi', ?_, fun hneg => ?_⟩
  · rw [hm, hm']
    exact FdMap.ctlStep _ c hsome fun h => (hnone h).1
  · refine (hnone (Option.not_isSome_iff_eq_none.1 fun hs => ?_)).2
    have := hsome hs
    omega

/-- Two descriptors of the three asked for are registered with a capacity of two, and the first of them
is modified. -/
def fourCalls : List CtlCall :=
  [⟨netxCtlAdd, 5, some ⟨netxEventIn, 7⟩⟩, ⟨netxCtlAdd, 6, some ⟨netxEventOut, 8⟩⟩,
    ⟨netxCtlAdd, 9, some ⟨netxEventIn, 0⟩⟩, ⟨netxCtlMod, 5, some ⟨netxEventOut, 7⟩⟩]

theorem netxCtl_refines_fdMap_four : ∃ rets polls' p used,
    ctlRun 1 fourCalls (netxCreate NetxPolls.init 2 true true).2 = some (rets, polls') ∧
    polls'.lookup 1 = some p ∧ PollInv p used ∧
    p.entries used = [(5, ⟨netxEventOut, 7⟩), (6, ⟨netxEventOut, 8⟩)] ∧
    rets.map (fun ret => decide (ret = 0)) = [true, true, false, true] := by
  obtain ⟨rets, polls', p, used, hrun, hl, hi, -, hentries, hrets, -⟩ :=
    netxCtl_refines_fdMap Reachable.init
      (rfl : netxCreate NetxPolls.init 2 true true = (1, _)) (by decide) fourCalls
  exact ⟨rets, polls', p, used, hrun, hl, hi, hentries, hrets⟩

end FwkMlib.Netx
