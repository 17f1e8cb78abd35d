import FwkMlib.Netx.CtlRun
import FwkMlib.Netx.Handles
import FwkMlib.Netx.WaitReport
import FwkMlib.Lib.Trace

/-!
# The module as a registry of ordered maps

* `PollCall`, `netxStep` : a call of the four functions with what it returned, as a step of the
  handle table;
* `Registry`, `Registry.Step` : the abstract module, a map from handles to ordered maps of
  registrations, and what each call may do to it and answer;
* `netxStep_refines` : every run of the module is a run of the registry;
* `netxStep_isolated` : the registrations under one handle are those its own `netx_ctl` calls make,
  whatever calls are made on other handles and whatever is waited for in between.
-/

namespace FwkMlib.Netx
open FwkMlib.Lib NetxPoll

/-- A call of the module, with what it returned. -/
inductive PollCall where
  | create (maxCounts : Nat) (ret : Int)
  | destroy (poll ret : Int)
  | ctl (poll : Int) (c : CtlCall) (ret : Int)
  | wait (poll : Int) (max : Nat) (ret : Int) (out : List (Int × NetxEvent))

/-- A call that returns, as a step of the handle table. -/
inductive netxStep (polls : NetxPolls) : List PollCall → NetxPolls → Prop
  | create {polls' : NetxPolls} {maxCounts : Nat} {listOk pollOk : Bool} {ret : Int}
      (h : netxCreate polls maxCounts listOk pollOk = (ret, polls')) :
      netxStep polls [.create maxCounts ret] polls'
  | destroy {polls' : NetxPolls} {poll ret : Int} (h : netxDestroy polls poll = (ret, polls')) :
      netxStep polls [.destroy poll ret] polls'
  | ctl {polls' : NetxPolls} {poll : Int} {c : CtlCall} {ret : Int}
      (h : netxCtl polls poll c.operation c.fd c.event = some (ret, polls')) :
      netxStep polls [.ctl poll c ret] polls'
  | wait {polls' : NetxPolls} {poll : Int} {events : Bool} {max timeout : Nat} {select : Select}
      {ret : Int} {out : List (Int × NetxEvent)}
      (h : netxWait polls poll events max timeout select = some (ret, out, polls')) :
      netxStep polls [.wait poll max ret out] polls'

/-! ## The abstract module -/

/-- A poll object as its client sees it. -/
structure Registrations where
  cap : Nat
  map : FdMap cap

abbrev Registry := Int → Option Registrations

/-- The registrations after a wait that wrote `out`: the order turns by one unless the array of
`max` entries is full. -/
def Waited (max : Nat) (out es es' : List (Int × NetxEvent)) : Prop :=
  (out.length = max ∧ es' = es) ∨ (out.length < max ∧ es' = es.rotate 1)

/-- What a call may do to the registry and answer. -/
inductive Registry.Step (w : Registry) : List PollCall → Registry → Prop
  | createFailed {maxCounts : Nat} {ret : Int} (hret : ret < 0) :
      Step w [.create maxCounts ret] w
  | created {maxCounts : Nat} {ret : Int} (hret : 0 < ret) (hmax : 1 ≤ maxCounts)
      (hfree : w ret = none) :
      Step w [.create maxCounts ret]
        (Function.update w ret (some ⟨min maxCounts FD_SETSIZE, OrdMap.empty⟩))
  | destroyed {poll : Int} {r : Registrations} (hlive : w poll = some r) :
      Step w [.destroy poll 0] (Function.update w poll none)
  | destroyDead {poll : Int} (hdead : w poll = none) : Step w [.destroy poll (-1)] w
  | accepted {poll : Int} {r : Registrations} {c : CtlCall} {m : FdMap r.cap}
      (hlive : w poll = some r) (hc : r.map.ctl c.operation c.fd c.event = some m) :
      Step w [.ctl poll c 0] (Function.update w poll (some ⟨r.cap, m⟩))
  | refused {poll : Int} {r : Registrations} {c : CtlCall} {ret : Int} (hlive : w poll = some r)
      (hc : r.map.ctl c.operation c.fd c.event = none) (hret : ret < 0) :
      Step w [.ctl poll c ret] w
  | ctlDead {poll : Int} {c : CtlCall} (hdead : w poll = none) : Step w [.ctl poll c (-1)] w
  | waited {poll : Int} {r : Registrations} {max : Nat} {fs : FdSets} {m : FdMap r.cap}
      {out : List (Int × NetxEvent)} (hlive : w poll = some r)
      (hout : out = ((ready fs r.map.entries).take max).map (report fs))
      (hm : Waited max out r.map.entries m.entries) :
      Step w [.wait poll max out.length out] (Function.update w poll (some ⟨r.cap, m⟩))
  | idle {poll : Int} {r : Registrations} {max : Nat} {ret : Int} (hlive : w poll = some r)
      (hret : ret ≤ 0) : Step w [.wait poll max ret []] w
  | waitDead {poll : Int} {max : Nat} (hdead : w poll = none) :
      Step w [.wait poll max (-1) []] w

/-! ## What one wait does -/

theorem test_returns {bit : Nat} {item : NetxItem} {fs : FdSet} {b : Nat}
    (h : test bit item fs = some b) :
    b = if item.event.events &&& bit ≠ 0 ∧ fs item.fd then bit else 0 := by
  unfold test at h
  by_cases hw : item.event.events &&& bit ≠ 0
  · rw [if_pos hw, FD_ISSET] at h
    split_ifs at h with hfd
    · simp only [Option.bind_eq_bind, Option.bind_some, Option.some.injEq] at h
      rw [← h]
      simp [hw]
    · cases h
  · rw [if_neg hw] at h
    cases h
    rw [if_neg fun h' => hw h'.1]

theorem checkEvent_returns {item : NetxItem} {fs : FdSets} {b : Nat}
    (h : checkEvent item fs = some b) : b = readyEvents fs item.entry := by
  unfold checkEvent at h
  obtain ⟨evIn, hin, h⟩ := Option.bind_eq_some_iff.1 h
  obtain ⟨evOut, hout, h⟩ := Option.bind_eq_some_iff.1 h
  obtain ⟨evEt, het, h⟩ := Option.bind_eq_some_iff.1 h
  cases h
  rw [test_returns hin, test_returns hout, test_returns het]
  rfl

/-- A second loop that returns wrote the ready registrations, until the array was full. -/
theorem scan_returns {fs : FdSets} {max : Nat} {items : List NetxItem} :
    ∀ {out out' : List (Int × NetxEvent)} {exit : WaitExit}, out.length < max →
      NetxPoll.scan fs max items out = some (out', exit) →
      out' = (out ++ reports fs (items.map NetxItem.entry)).take max ∧
        (exit = .full ∧ out'.length = max ∨ exit = .done ∧ out'.length < max) := by
  induction items with
  | nil =>
    intro out out' exit hout h
    cases h
    refine ⟨?_, .inr ⟨rfl, hout⟩⟩
    rw [List.map_nil, reports, List.filter_nil, List.map_nil, List.append_nil,
      List.take_of_length_le hout.le]
  | cons item items ih =>
    intro out out' exit hout h
    rw [NetxPoll.scan] at h
    obtain ⟨event, hev, h⟩ := Option.bind_eq_some_iff.1 h
    obtain rfl := checkEvent_returns hev
    rw [List.map_cons, reports_cons]
    by_cases hready : readyEvents fs item.entry ≠ 0
    · simp only [if_pos hready] at h ⊢
      rw [List.append_cons]
      have hlen : (out ++ [(item.fd, (⟨readyEvents fs item.entry, item.event.data⟩ :
          NetxEvent))]).length = out.length + 1 := List.length_append
      by_cases hfull : out.length + 1 = max
      · rw [hlen, if_pos ⟨hready, hfull⟩] at h
        cases h
        refine ⟨?_, .inl ⟨rfl, hlen.trans hfull⟩⟩
        exact (List.take_left' (hlen.trans hfull)).symm
      · rw [hlen, if_neg fun h' => hfull h'.2] at h
        have hroom : out.length + 1 < max := by omega
        exact ih (hlen.trans_lt hroom) h
    · simp only [if_neg hready] at h ⊢
      rw [if_neg fun h' => hready h'.1] at h
      exact ih hout h

/-- A wait that returns reported nothing, or some ready registrations in ring order. -/
theorem wait_returns {p q : NetxPoll} {used : List Nat} (hi : PollInv p used) {max timeout : Nat}
    (hmax : 0 < max) {select : Select} {ret : Int} {out : List (Int × NetxEvent)}
    (h : p.wait max timeout select = some (ret, out, q)) :
    (ret ≤ 0 ∧ out = [] ∧ q = p) ∨
      ∃ fs used', out = ((ready fs (p.entries used)).take max).map (report fs) ∧
        ret = out.length ∧ PollInv q used' ∧ q.maxCounts = p.maxCounts ∧
        Waited max out (p.entries used) (q.entries used') := by
  unfold wait at h
  cases used with
  | nil =>
    rw [hi.usedList] at h
    cases h
  | cons u l =>
    rw [hi.usedList] at h
    simp only [List.head?_cons, Option.bind_eq_bind, Option.bind_some] at h
    obtain ⟨⟨fs₀, maxSock⟩, -, h⟩ := Option.bind_eq_some_iff.1 h
    split_ifs at h with h₁ h₂ h₃
    · cases h
      exact .inl ⟨le_rfl, rfl, rfl⟩
    · cases h
      exact .inl ⟨by decide, rfl, rfl⟩
    · cases h
      exact .inl ⟨le_rfl, rfl, rfl⟩
    · obtain ⟨⟨out', exit⟩, hscan, h⟩ := Option.bind_eq_some_iff.1 h
      rw [checkEvents_ring hi] at hscan
      obtain ⟨hout, hexit⟩ := scan_returns hmax hscan
      rw [entries_eq_map, List.nil_append, reports_eq, ← List.map_take] at hout
      subst hout
      rcases hexit with ⟨rfl, hlen⟩ | ⟨rfl, hlen⟩
      · cases h
        exact .inr ⟨_, u :: l, rfl, rfl, hi, rfl, .inl ⟨hlen, rfl⟩⟩
      · cases h
        refine .inr ⟨_, l ++ [u], rfl, rfl, rotate_inv hi, rfl, .inr ⟨hlen, ?_⟩⟩
        show p.entries (l ++ [u]) = (p.entries (u :: l)).rotate 1
        have hrot : (u :: l).rotate 1 = l ++ [u] := by
          rw [List.rotate_cons_succ, List.rotate_zero]
        unfold NetxPoll.entries
        rw [← hrot, List.map_rotate]

/-! ## The handle table follows the registry -/

/-- The handle table holds a poll object for each handle of the registry, and no other one. -/
structure RegistryOf (polls : NetxPolls) (w : Registry) : Prop where
  inv : polls.Inv
  counted : polls.Counted
  dead : ∀ h, w h = none → polls.lookup h = none
  live : ∀ h r, w h = some r → HandleRepresents polls h r.map

section
variable {polls polls' : NetxPolls} {w : Registry} {h poll : Int} {r : Registrations}

theorem HandleRepresents.congr {cap : Nat} {m : FdMap cap} (hm : HandleRepresents polls h m)
    (hl : polls'.lookup h = polls.lookup h) : HandleRepresents polls' h m := by
  obtain ⟨p, hp, hrep⟩ := hm
  exact ⟨p, hl.trans hp, hrep⟩

theorem RegistryOf.live_of_lookup (hw : RegistryOf polls w) {p : NetxPoll}
    (hl : polls.lookup h = some p) : ∃ r, w h = some r := by
  rw [← Option.ne_none_iff_exists']
  intro hn
  rw [hw.dead h hn] at hl
  cases hl

theorem RegistryOf.dead_of_lookup (hw : RegistryOf polls w) (hl : polls.lookup h = none) :
    w h = none := by
  by_contra hne
  obtain ⟨r, hr⟩ := Option.ne_none_iff_exists'.1 hne
  obtain ⟨p, hp, -⟩ := hw.live h r hr
  rw [hl] at hp
  cases hp

theorem RegistryOf.update (hw : RegistryOf polls w) (hinv : polls'.Inv) (hc : polls'.Counted)
    (hne : ∀ h, h ≠ poll → polls'.lookup h = polls.lookup h) {v : Option Registrations}
    (hdead : v = none → polls'.lookup poll = none)
    (hlive : ∀ r, v = some r → HandleRepresents polls' poll r.map) :
    RegistryOf polls' (Function.update w poll v) where
  inv := hinv
  counted := hc
  dead h hn := by
    by_cases he : h = poll
    · subst he
      rw [Function.update_self] at hn
      exact hdead hn
    · rw [Function.update_of_ne he] at hn
      rw [hne h he, hw.dead h hn]
  live h r hr := by
    by_cases he : h = poll
    · subst he
      rw [Function.update_self] at hr
      exact hlive r hr
    · rw [Function.update_of_ne he] at hr
      exact (hw.live h r hr).congr (hne h he)

theorem lookup_netxCtl_ne {c : CtlCall} {ret : Int}
    (hc : netxCtl polls poll c.operation c.fd c.event = some (ret, polls')) (hne : h ≠ poll) :
    polls'.lookup h = polls.lookup h := by
  unfold netxCtl at hc
  cases hl : polls.lookup poll with
  | none =>
    rw [hl] at hc
    cases hc
    rfl
  | some p =>
    rw [hl] at hc
    simp only at hc
    have hpos := (NetxPolls.lookup_eq_some.1 hl).1.1
    split_ifs at hc
    · cases hc
      rfl
    · obtain ⟨⟨ret', q⟩, -, hc⟩ := Option.bind_eq_some_iff.1 hc
      cases hc
      apply NetxPolls.lookup_setSlot_ne
      omega

theorem RegistryOf.create (hw : RegistryOf polls w) {maxCounts : Nat} {listOk pollOk : Bool}
    {ret : Int} (hc : netxCreate polls maxCounts listOk pollOk = (ret, polls')) :
    ∃ w', Registry.Step w [.create maxCounts ret] w' ∧ RegistryOf polls' w' := by
  have hinv : polls'.Inv := by
    have := hw.inv.create maxCounts listOk pollOk
    rwa [hc] at this
  obtain ⟨hcount, ⟨hneg, hsame⟩ | ⟨hpos, hfree, hnew⟩⟩ :=
    NetxPolls.lookup_netxCreate hw.inv hw.counted hc
  · refine ⟨w, (.createFailed (by omega)), hinv, hcount, fun h hn => ?_, fun h r hr => ?_⟩
    · rw [hsame, hw.dead h hn]
    · exact (hw.live h r hr).congr (hsame h)
  · obtain ⟨hmax, hl⟩ := lookup_create hw.inv hc hpos
    refine ⟨_, (.created hpos hmax (hw.dead_of_lookup hfree)), ?_⟩
    apply hw.update hinv hcount
    · intro h hne
      rw [hnew, if_neg hne]
    · intro hn
      cases hn
    · intro r hr
      cases hr
      have hcap : 1 ≤ min maxCounts FD_SETSIZE := by unfold FD_SETSIZE; omega
      exact ⟨_, hl, [], initPoll_inv hcap, rfl, rfl⟩

theorem RegistryOf.destroy (hw : RegistryOf polls w) {ret : Int}
    (hd : netxDestroy polls poll = (ret, polls')) :
    ∃ w', Registry.Step w [.destroy poll ret] w' ∧ RegistryOf polls' w' := by
  have hinv : polls'.Inv := by
    have := hw.inv.destroy poll
    rwa [hd] at this
  have hlookup := NetxPolls.lookup_destroy hw.inv hw.counted hd
  have hcount := hw.counted.destroy hw.inv hd
  rcases NetxPolls.netxDestroy_cases hw.inv hd with ⟨hl, rfl, rfl⟩ | ⟨p, hl, rfl, -⟩
  · exact ⟨w, (.destroyDead (hw.dead_of_lookup hl)), hw⟩
  · obtain ⟨r, hr⟩ := hw.live_of_lookup hl
    refine ⟨_, (.destroyed hr), ?_⟩
    apply hw.update hinv hcount
    · intro h hne
      rw [hlookup, if_neg hne]
    · intro _
      rw [hlookup, if_pos rfl]
    · intro r hr
      cases hr

theorem RegistryOf.ctl (hw : RegistryOf polls w) {c : CtlCall} {ret : Int}
    (hc : netxCtl polls poll c.operation c.fd c.event = some (ret, polls')) :
    ∃ w', Registry.Step w [.ctl poll c ret] w' ∧ RegistryOf polls' w' := by
  cases hl : polls.lookup poll with
  | none =>
    unfold netxCtl at hc
    rw [hl] at hc
    cases hc
    exact ⟨w, (.ctlDead (hw.dead_of_lookup hl)), hw⟩
  | some p =>
    obtain ⟨r, hr⟩ := hw.live_of_lookup hl
    obtain ⟨ret', polls'', hc', hrep, hsome, hnone⟩ := netxCtl_simulates (hw.live poll r hr) c
    obtain ⟨rfl, rfl⟩ : ret' = ret ∧ polls'' = polls' := by
      rw [hc] at hc'
      cases hc'
      exact ⟨rfl, rfl⟩
    cases hm : r.map.ctl c.operation c.fd c.event with
    | none =>
      obtain ⟨hneg, rfl⟩ := hnone hm
      exact ⟨w, (.refused hr hm hneg), hw⟩
    | some m =>
      obtain rfl := hsome (by rw [hm]; rfl)
      refine ⟨_, (.accepted hr hm), ?_⟩
      apply hw.update (hw.inv.ctl hc) (hw.counted.ctl hc).1
      · intro h hne
        exact lookup_netxCtl_ne hc hne
      · intro hn
        cases hn
      · intro r' hr'
        cases hr'
        rw [FdMap.step, hm] at hrep
        exact hrep

theorem RegistryOf.wait (hw : RegistryOf polls w) {events : Bool} {max timeout : Nat}
    {select : Select} {ret : Int} {out : List (Int × NetxEvent)}
    (hwait : netxWait polls poll events max timeout select = some (ret, out, polls')) :
    ∃ w', Registry.Step w [.wait poll max ret out] w' ∧ RegistryOf polls' w' := by
  have hinv := hw.inv.wait hwait
  have hcount := (hw.counted.wait hwait).1
  unfold netxWait at hwait
  cases hl : polls.lookup poll with
  | none =>
    rw [hl] at hwait
    cases hwait
    exact ⟨w, (.waitDead (hw.dead_of_lookup hl)), hw⟩
  | some p =>
    obtain ⟨⟨cap, m⟩, hr⟩ := hw.live_of_lookup hl
    rw [hl] at hwait
    simp only at hwait
    split_ifs at hwait with h₁ h₂
    · cases hwait
      exact ⟨w, (.idle hr (by decide)), hw⟩
    · cases hwait
      exact ⟨w, (.idle hr le_rfl), hw⟩
    · obtain ⟨⟨ret', out', q⟩, hrun, hwait⟩ := Option.bind_eq_some_iff.1 hwait
      cases hwait
      obtain ⟨p', hl', used, hi, (hmaxp : p'.maxCounts = cap), hm⟩ := hw.live poll _ hr
      obtain rfl : p' = p := Option.some.inj (hl'.symm.trans hl)
      have hpos : 0 < max := by
        by_contra hz
        exact h₁ (.inr (by omega))
      have hself := NetxPolls.lookup_setSlot hl q
      rcases wait_returns hi hpos hrun with ⟨hret, rfl, rfl⟩ | ⟨fs, used', hout, rfl, hq, hmaxq, hturn⟩
      · refine ⟨w, (.idle hr hret), ?_⟩
        rw [NetxPolls.setSlot_self (NetxPolls.lookup_eq_some.1 hl).2]
        exact hw
      · have hnodup : ((q.entries used').map Prod.fst).Nodup := by
          rw [entries_fst]
          exact hq.fdNodup
        have hlen : (q.entries used').length ≤ cap := by
          rw [NetxPoll.entries, List.length_map, ← hmaxp, ← hmaxq]
          exact hq.length_le
        rw [hm] at hout hturn
        refine ⟨_, (.waited hr (m := ⟨q.entries used', hnodup, hlen⟩) hout hturn), ?_⟩
        apply hw.update hinv hcount
        · intro h hne
          have hposp := (NetxPolls.lookup_eq_some.1 hl).1.1
          apply NetxPolls.lookup_setSlot_ne
          omega
        · intro hn
          cases hn
        · intro r hr
          cases hr
          exact ⟨q, hself, used', hq, hmaxq.trans hmaxp, rfl⟩

theorem RegistryOf.init : RegistryOf NetxPolls.init fun _ => none :=
  ⟨Reachable.init.inv, .init, fun h _ => by simp [NetxPolls.lookup, NetxPolls.slot, NetxPolls.init],
    fun _ _ hr => by cases hr⟩

end

theorem registry_simulates : Simulation netxStep Registry.Step RegistryOf := by
  intro polls w o polls' hw hs
  have hmatch : ∃ w', Registry.Step w o w' ∧ RegistryOf polls' w' := by
    cases hs with
    | create h => exact hw.create h
    | destroy h => exact hw.destroy h
    | ctl h => exact hw.ctl h
    | wait h => exact hw.wait h
  obtain ⟨w', hstep, hw'⟩ := hmatch
  exact ⟨w', .single hstep, hw'⟩

/-- **The module refines the registry**: whatever the calls of a run returned, the registry may
answer the same, and then holds what the handle table holds. -/
theorem netxStep_refines {polls : NetxPolls} {tr : List PollCall}
    (hr : Steps netxStep NetxPolls.init tr polls) :
    ∃ w, Steps Registry.Step (fun _ => none) tr w ∧ RegistryOf polls w :=
  registry_simulates.steps RegistryOf.init hr

/-- A poll object with one fd. -/
theorem netxStep_refines_one : ∃ polls w, Steps Registry.Step (fun _ => none)
    [.create 4 1, .ctl 1 ⟨netxCtlAdd, 5, some ⟨netxEventIn, 0⟩⟩ 0] w ∧ RegistryOf polls w := by
  obtain ⟨t₁, t₂, h₁, h₂⟩ : ∃ t₁ t₂, netxCreate NetxPolls.init 4 true true = (1, t₁) ∧
      netxCtl t₁ 1 netxCtlAdd 5 (some ⟨netxEventIn, 0⟩) = some (0, t₂) := ⟨_, _, rfl, rfl⟩
  exact ⟨t₂, netxStep_refines ((Steps.refl.tail (netxStep.create h₁)).tail
    (netxStep.ctl (c := ⟨netxCtlAdd, 5, some ⟨netxEventIn, 0⟩⟩) h₂))⟩

/-! ## One handle among the others -/

def ctlsOn (h : Int) (tr : List PollCall) : List (CtlCall × Int) :=
  tr.filterMap fun
    | .ctl poll c ret => if poll = h then some (c, ret) else none
    | _ => none

theorem ctlsOn_self (h : Int) (c : CtlCall) (ret : Int) :
    ctlsOn h [PollCall.ctl h c ret] = [(c, ret)] := by
  simp [ctlsOn]

theorem ctlsOn_ne {h poll : Int} (hne : poll ≠ h) (c : CtlCall) (ret : Int) :
    ctlsOn h [PollCall.ctl poll c ret] = [] := by
  simp [ctlsOn, hne]

namespace FdMap

variable {cap : Nat} {m m' : FdMap cap}

theorem ctl_same (hm : m.Same m') (operation : Nat) (fd : Int) (event : Option NetxEvent) :
    Option.Rel OrdMap.Same (m.ctl operation fd event) (m'.ctl operation fd event) := by
  have hbind : ∀ {f g : NetxEvent → Option (FdMap cap)}, (∀ ev, Option.Rel OrdMap.Same (f ev) (g ev)) →
      Option.Rel OrdMap.Same (event.bind f) (event.bind g) := by
    intro f g hfg
    cases event with
    | none => exact .none
    | some ev => exact hfg ev
  unfold ctl
  split_ifs
  · exact hbind fun ev => hm.insert? fd ev
  · exact .none
  · exact hbind fun ev => hm.modify? fd ev
  · exact hm.erase? fd
  · exact .none

theorem run_append (cs cs' : List CtlCall) : run (cs ++ cs') m = run cs' (run cs m) :=
  List.foldl_append

theorem accepts_append (cs cs' : List CtlCall) :
    accepts (cs ++ cs') m = accepts cs m ++ accepts cs' (run cs m) := by
  induction cs generalizing m with
  | nil => rfl
  | cons c cs ih =>
    show _ :: accepts (cs ++ cs') (m.step c) = _
    rw [ih]
    rfl

theorem step_same (hm : m.Same m') (c : CtlCall) :
    (m.step c).Same (m'.step c) ∧
      (m.ctl c.operation c.fd c.event).isSome = (m'.ctl c.operation c.fd c.event).isSome := by
  have hctl := ctl_same hm c.operation c.fd c.event
  unfold step
  cases hc : m.ctl c.operation c.fd c.event <;> cases hc' : m'.ctl c.operation c.fd c.event <;>
    rw [hc, hc'] at hctl <;> cases hctl
  · exact ⟨hm, rfl⟩
  · next h => exact ⟨h, rfl⟩

/-- The order of the registrations decides nothing. -/
theorem run_same (hm : m.Same m') (cs : List CtlCall) :
    (run cs m).Same (run cs m') ∧ accepts cs m = accepts cs m' := by
  induction cs generalizing m m' with
  | nil => exact ⟨hm, rfl⟩
  | cons c cs ih =>
    obtain ⟨hstep, hsome⟩ := step_same hm c
    obtain ⟨hrun, hacc⟩ := ih hstep
    exact ⟨hrun, by rw [accepts, accepts, hsome, hacc]⟩

end FdMap

/-- The registrations under a handle are those the calls `cs` make of `m`, in some order, and the
calls were answered accordingly. -/
structure Registry.Follows (w : Registry) (h : Int) {cap : Nat} (m : FdMap cap)
    (cs : List (CtlCall × Int)) : Prop where
  holds : ∃ m' : FdMap cap, w h = some ⟨cap, m'⟩ ∧ m'.Same (FdMap.run (cs.map Prod.fst) m)
  answers : cs.map (fun c => decide (c.2 = 0)) = FdMap.accepts (cs.map Prod.fst) m

section
variable {w w' : Registry} {h : Int} {cap : Nat} {m : FdMap cap}

theorem Registry.Follows.of_eq (hl : w h = some ⟨cap, m⟩) : w.Follows h m [] :=
  ⟨⟨m, hl, List.Perm.refl _⟩, rfl⟩

theorem Registry.Follows.append {m' : FdMap cap} {cs cs' : List (CtlCall × Int)}
    (hm : w.Follows h m cs) (hl : w h = some ⟨cap, m'⟩) (hm' : w'.Follows h m' cs') :
    w'.Follows h m (cs ++ cs') := by
  obtain ⟨m₁, hl₁, hsame⟩ := hm.holds
  obtain ⟨m₂, hl₂, hsame'⟩ := hm'.holds
  obtain rfl : m₁ = m' := by
    rw [hl] at hl₁
    cases hl₁
    rfl
  obtain ⟨hrun, hacc⟩ := FdMap.run_same hsame (cs'.map Prod.fst)
  refine ⟨⟨m₂, hl₂, ?_⟩, ?_⟩
  · rw [List.map_append, FdMap.run_append]
    exact List.Perm.trans hsame' hrun
  · rw [List.map_append, List.map_append, FdMap.accepts_append, hm.answers, hm'.answers, hacc]

/-- Only its own `netx_ctl` calls, and its destruction, matter to a handle. -/
theorem Registry.Step.follows {tr : List PollCall} (hs : Registry.Step w tr w')
    (hl : w h = some ⟨cap, m⟩) (hkept : PollCall.destroy h 0 ∉ tr) :
    w'.Follows h m (ctlsOn h tr) := by
  have hself : ∀ {v : Option Registrations} {poll : Int}, h ≠ poll →
      Function.update w poll v h = some ⟨cap, m⟩ := fun hne => by
    rw [Function.update_of_ne hne, hl]
  cases hs with
  | createFailed => exact .of_eq hl
  | @created maxCounts ret _ _ hfree =>
    refine .of_eq (hself ?_)
    rintro rfl
    rw [hl] at hfree
    cases hfree
  | @destroyed poll =>
    refine .of_eq (hself ?_)
    rintro rfl
    exact hkept List.mem_cons_self
  | destroyDead => exact .of_eq hl
  | @accepted poll r c m' hlive hc =>
    by_cases he : poll = h
    · subst he
      rw [hl] at hlive
      cases hlive
      rw [ctlsOn_self]
      refine ⟨⟨m', Function.update_self _ _ _, ?_⟩, ?_⟩
      · show m'.Same (m.step c)
        rw [FdMap.step, hc]
        exact List.Perm.refl _
      · simp [FdMap.accepts, hc]
    · rw [ctlsOn_ne he]
      exact .of_eq (hself (Ne.symm he))
  | @refused poll r c ret hlive hc hret =>
    by_cases he : poll = h
    · subst he
      rw [hl] at hlive
      cases hlive
      rw [ctlsOn_self]
      refine ⟨⟨m, hl, ?_⟩, ?_⟩
      · show m.Same (m.step c)
        rw [FdMap.step, hc]
        exact List.Perm.refl _
      · simp [FdMap.accepts, hc, hret.ne]
    · rw [ctlsOn_ne he]
      exact .of_eq hl
  | @ctlDead poll c hdead =>
    have he : poll ≠ h := by
      rintro rfl
      rw [hl] at hdead
      cases hdead
    rw [ctlsOn_ne he]
    exact .of_eq hl
  | @waited poll r max fs m' out hlive hout hm =>
    show Registry.Follows _ _ _ []
    by_cases he : h = poll
    · subst he
      rw [hl] at hlive
      cases hlive
      refine ⟨⟨m', Function.update_self _ _ _, ?_⟩, rfl⟩
      show m'.entries.Perm m.entries
      rcases hm with ⟨-, hm⟩ | ⟨-, hm⟩
      · rw [hm]
      · rw [hm]
        exact List.rotate_perm _ _
    · exact .of_eq (hself he)
  | idle => exact .of_eq hl
  | waitDead => exact .of_eq hl

theorem Registry.isolated {tr : List PollCall} (hr : Steps Registry.Step w tr w')
    (hl : w h = some ⟨cap, m⟩) (hkept : PollCall.destroy h 0 ∉ tr) :
    w'.Follows h m (ctlsOn h tr) := by
  induction hr with
  | refl => exact .of_eq hl
  | @tail tr ls w₁ w₂ _ hs ih =>
    rw [List.mem_append, not_or] at hkept
    have hm := ih hkept.1
    obtain ⟨m₁, hl₁, -⟩ := hm.holds
    have := hm.append hl₁ (hs.follows hl₁ hkept.2)
    unfold ctlsOn at this ⊢
    rwa [List.filterMap_append]

end

/-- **Handles are isolated**: from any state of any run, the registrations under a handle become, in
some order, what its own `netx_ctl` calls make of them, and those calls are answered accordingly,
until it is destroyed. -/
theorem netxStep_isolated {polls polls' : NetxPolls} {tr₀ tr : List PollCall}
    (hr₀ : Steps netxStep NetxPolls.init tr₀ polls) {h : Int} {p : NetxPoll}
    (hl : polls.lookup h = some p) (hr : Steps netxStep polls tr polls')
    (hkept : PollCall.destroy h 0 ∉ tr) :
    ∃ (m m' : FdMap p.maxCounts), HandleRepresents polls h m ∧ HandleRepresents polls' h m' ∧
      m'.Same (FdMap.run ((ctlsOn h tr).map Prod.fst) m) ∧
      (ctlsOn h tr).map (fun c => decide (c.2 = 0)) =
        FdMap.accepts ((ctlsOn h tr).map Prod.fst) m := by
  obtain ⟨w, -, hw⟩ := registry_simulates.steps RegistryOf.init hr₀
  obtain ⟨⟨cap, m⟩, hlive⟩ := hw.live_of_lookup hl
  obtain ⟨w', hrun, hw'⟩ := registry_simulates.steps hw hr
  obtain ⟨⟨m', hl', hsame⟩, hans⟩ := Registry.isolated hrun hlive hkept
  have hrep := hw.live h _ hlive
  obtain rfl : p.maxCounts = cap := by
    obtain ⟨q, hq, used, -, hmax, -⟩ := hrep
    rw [hl] at hq
    cases hq
    exact hmax
  exact ⟨m, m', hrep, hw'.live h _ hl', hsame, hans⟩

/-- Two poll objects, an fd registered in each, and waits on the second. -/
theorem netxStep_isolated_two : ∃ polls polls' m,
    Steps netxStep NetxPolls.init [.create 2 1, .create 2 2] polls ∧
    Steps netxStep polls [.ctl 2 ⟨netxCtlAdd, 7, some ⟨netxEventIn, 0⟩⟩ 0,
      .ctl 1 ⟨netxCtlAdd, 5, some ⟨netxEventIn, 0⟩⟩ 0, .wait 2 1 0 []] polls' ∧
    HandleRepresents polls' 1 (m : FdMap 2) ∧ m.entries = [(5, ⟨netxEventIn, 0⟩)] := by
  obtain ⟨t₁, t₂, t₃, t₄, h₁, h₂, hl, h₃, h₄, h₅⟩ : ∃ t₁ t₂ t₃ t₄,
      netxCreate NetxPolls.init 2 true true = (1, t₁) ∧ netxCreate t₁ 2 true true = (2, t₂) ∧
      t₂.lookup 1 = some (initPoll 2) ∧
      netxCtl t₂ 2 netxCtlAdd 7 (some ⟨netxEventIn, 0⟩) = some (0, t₃) ∧
      netxCtl t₃ 1 netxCtlAdd 5 (some ⟨netxEventIn, 0⟩) = some (0, t₄) ∧
      netxWait t₄ 2 true 1 0 (fun _ fs _ _ => (0, fs)) = some (0, [], t₄) :=
    ⟨_, _, _, _, rfl, rfl, rfl, rfl, rfl, rfl⟩
  have hr₀ := (Steps.refl.tail (netxStep.create h₁)).tail (netxStep.create h₂)
  have hr := ((Steps.refl.tail (netxStep.ctl (c := ⟨netxCtlAdd, 7, some ⟨netxEventIn, 0⟩⟩) h₃)).tail
    (netxStep.ctl (c := ⟨netxCtlAdd, 5, some ⟨netxEventIn, 0⟩⟩) h₄)).tail (netxStep.wait h₅)
  obtain ⟨m, m', ⟨p, hp, used, hi, -, hm⟩, hrep, hsame, -⟩ :=
    netxStep_isolated hr₀ hl hr (by simp)
  obtain rfl : initPoll 2 = p := Option.some.inj (hl.symm.trans hp)
  obtain rfl := hi.unique (initPoll_inv (by decide))
  obtain rfl : m = OrdMap.empty := OrdMap.ext hm.symm
  exact ⟨t₂, t₄, m', hr₀, hr, hrep, List.perm_singleton.1 hsame⟩

end FwkMlib.Netx
