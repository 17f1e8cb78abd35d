import FwkMlib.Netx.CtlRun

/-!
# Sequences of `netx_wait` calls

* `netxWait_allReady` : one call of a run in which `select` reports every registration ready;
* `netxWait_serves_all_iff` : as many such calls as there are registrations report every one of
  them exactly when the output array has room for all of them. The head of the ring moves on only
  on the exit taken when the array did not fill.
-/

namespace FwkMlib.Netx
open FwkMlib.Lib NetxPoll

/-- A `netx_wait` call of a run: the time-out, and the answer of `select` during it. -/
structure WaitCall where
  timeout : Nat
  select : Select

/-- The calls of a list, in order, with the same handle and output array: what each reports. -/
def waitRun (poll : Int) (maxEventsCounts : Nat) :
    List WaitCall → NetxPolls → Option (List (List (Int × NetxEvent)) × NetxPolls)
  | [], polls => some ([], polls)
  | c :: cs, polls => do
    let (_, out, polls) ← netxWait polls poll true maxEventsCounts c.timeout c.select
    let (outs, polls) ← waitRun poll maxEventsCounts cs polls
    some (out :: outs, polls)

/-- What `select` answers when the call asks about the registrations `es`. -/
def WaitCall.answer (c : WaitCall) (es : List (Int × NetxEvent)) : Int × FdSets :=
  c.select (maxWatched es 0 + 1) (interests es) (c.timeout / 1000) (1000 * (c.timeout % 1000))

def AllReady (es : List (Int × NetxEvent)) (c : WaitCall) : Prop :=
  0 < (c.answer es).1 ∧ ∀ e ∈ es, readyEvents (c.answer es).2 e ≠ 0

/-! ## The order of the ring does not matter to `select` -/

theorem interest_perm {es es' : List (Int × NetxEvent)} (h : es.Perm es') (bit : Nat) :
    interest bit es = interest bit es' :=
  funext fun _ => h.any_eq

theorem maxWatched_perm {es es' : List (Int × NetxEvent)} (h : es.Perm es') (m : Int) :
    maxWatched es m = maxWatched es' m := by
  have hcomm : RightCommutative fun (m : Int) (e : Int × NetxEvent) =>
      if Watched e ∧ m < e.1 then e.1 else m := by
    refine ⟨fun m e e' => ?_⟩
    by_cases he : Watched e <;> by_cases he' : Watched e' <;> simp only [he, he', true_and,
      false_and, if_false]
    split_ifs <;> omega
  exact h.foldl_eq m

theorem AllReady.perm {es es' : List (Int × NetxEvent)} {c : WaitCall} (h : AllReady es c)
    (hp : es.Perm es') : AllReady es' c := by
  have hans : c.answer es' = c.answer es := by
    unfold WaitCall.answer interests
    rw [maxWatched_perm hp, interest_perm hp, interest_perm hp, interest_perm hp]
  refine ⟨hans ▸ h.1, fun e he => ?_⟩
  rw [hans]
  exact h.2 e (hp.mem_iff.2 he)

/-! ## One call -/

theorem watched_of_ready {fs : FdSets} {e : Int × NetxEvent} (h : readyEvents fs e ≠ 0) :
    Watched e := by
  by_contra hw
  unfold Watched at hw
  apply h
  unfold readyEvents
  rw [if_neg fun h' => hw (.inl h'.1), if_neg fun h' => hw (.inr (.inl h'.1)),
    if_neg fun h' => hw (.inr (.inr h'.1))]
  rfl

/-- With everything ready the reports are all registrations, in ring order. -/
theorem reports_fds {fs : FdSets} {es : List (Int × NetxEvent)}
    (h : ∀ e ∈ es, readyEvents fs e ≠ 0) : (reports fs es).map Prod.fst = es.map Prod.fst := by
  unfold reports
  rw [List.filter_eq_self.2 (by simpa using h), List.map_map]
  rfl

/-- The registrations of a poll object whose fds fit the bitmaps and are not all `0`. -/
structure Selectable (es : List (Int × NetxEvent)) : Prop where
  inFdSet : ∀ e ∈ es, InFdSet e.1
  pos : ∃ e ∈ es, 0 < e.1

theorem Selectable.perm {es es' : List (Int × NetxEvent)} (h : Selectable es) (hp : es.Perm es') :
    Selectable es' := by
  obtain ⟨e, he, hpos⟩ := h.pos
  exact ⟨fun e he => h.inFdSet e (hp.mem_iff.2 he), e, hp.mem_iff.1 he, hpos⟩

/-- The poll object with everything ready: the first `m` registrations are reported, and the ring
is left as it was or turned by one. -/
theorem wait_allReady {p : NetxPoll} {used : List Nat} (hi : PollInv p used)
    (hs : Selectable (p.entries used)) {m : Nat} (hm : 1 ≤ m) {c : WaitCall}
    (hc : AllReady (p.entries used) c) :
    ∃ ret out p' used', p.wait m c.timeout c.select = some (ret, out, p') ∧ PollInv p' used' ∧
      (p.entries used).Perm (p'.entries used') ∧
      out.map Prod.fst = ((p.entries used).map Prod.fst).take m ∧
      (m ≤ (p.entries used).length → p'.entries used' = p.entries used) := by
  cases used with
  | nil =>
    obtain ⟨e, he, -⟩ := hs.pos
    cases he
  | cons u l =>
    obtain ⟨e, he, hpos⟩ := hs.pos
    have hw := wait_eq hi (fun e he _ => hs.inFdSet e he) ⟨e, he, watched_of_ready (hc.2 e he), hpos⟩
      hm c.timeout c.select (rfl : _ = ((c.answer (p.entries (u :: l))).1, _))
    have hfds := reports_fds hc.2
    have hlen := congrArg List.length hfds
    rw [List.length_map, List.length_map] at hlen
    have hret := hc.1
    rw [if_neg (by omega), if_neg (by omega)] at hw
    by_cases hroom : (p.entries (u :: l)).length < m
    · rw [if_pos (by rw [← hlen] at hroom; exact hroom)] at hw
      refine ⟨_, _, _, l ++ [u], hw, rotate_inv hi, ?_, ?_, fun hle => by omega⟩
      · show (p.entries (u :: l)).Perm (p.entries (l ++ [u]))
        exact ((List.perm_append_singleton u l).map _).symm
      · have hle : ((p.entries (u :: l)).map Prod.fst).length ≤ m := by
          rw [List.length_map]
          omega
        rw [List.take_of_length_le hle]
        exact hfds
    · rw [if_neg (by rw [← hlen] at hroom; exact hroom)] at hw
      refine ⟨_, _, p, u :: l, hw, hi, List.Perm.refl _, ?_, fun _ => rfl⟩
      rw [List.map_take]
      exact congrArg (List.take m) hfds

/-- A call on a live poll object with registrations is its wait. -/
theorem netxWait_live {polls : NetxPolls} {poll : Int} {p q : NetxPoll} {m timeout : Nat}
    {select : Select} {ret : Int} {out : List (Int × NetxEvent)}
    (hl : polls.lookup poll = some p) (hm : 1 ≤ m) (hc : p.counts ≠ 0)
    (hw : p.wait m timeout select = some (ret, out, q)) :
    netxWait polls poll true m timeout select =
      some (ret, out, polls.setSlot (poll.toNat - 1) (some q)) := by
  unfold netxWait
  rw [hl]
  dsimp only
  rw [if_neg (not_or.2 ⟨by decide, by omega⟩), if_neg hc, hw]
  rfl

theorem counts_ne_zero {p : NetxPoll} {used : List Nat} (hi : PollInv p used)
    (hs : p.entries used ≠ []) : p.counts ≠ 0 := by
  have := List.length_pos_iff.2 hs
  rw [entries, List.length_map] at this
  rw [hi.counts]
  omega

theorem netxWait_allReady {polls : NetxPolls} {poll : Int} {p : NetxPoll} {used : List Nat}
    (hl : polls.lookup poll = some p) (hi : PollInv p used) (hs : Selectable (p.entries used))
    {m : Nat} (hm : 1 ≤ m) {c : WaitCall} (hc : AllReady (p.entries used) c) :
    ∃ ret out polls' p' used',
      netxWait polls poll true m c.timeout c.select = some (ret, out, polls') ∧
      polls'.lookup poll = some p' ∧ PollInv p' used' ∧
      (p.entries used).Perm (p'.entries used') ∧
      out.map Prod.fst = ((p.entries used).map Prod.fst).take m ∧
      (m ≤ (p.entries used).length → p'.entries used' = p.entries used) := by
  obtain ⟨ret, out, p', used', hw, hi', hperm, hout, hsame⟩ := wait_allReady hi hs hm hc
  refine ⟨ret, out, polls.setSlot (poll.toNat - 1) (some p'), p', used', ?_,
    NetxPolls.lookup_setSlot hl p', hi', hperm, hout, hsame⟩
  obtain ⟨e, he, -⟩ := hs.pos
  exact netxWait_live hl hm (counts_ne_zero hi (List.ne_nil_of_mem he)) hw

/-! ## The run -/

/-- What a run with everything ready reports: all registrations in every call when the array has
room for them, the first `m` of one fixed ring order in every call when it has not. -/
theorem waitRun_allReady {poll : Int} {m : Nat} (hm : 1 ≤ m) {es : List (Int × NetxEvent)}
    (hs : Selectable es) : ∀ (cs : List WaitCall) {polls : NetxPolls} {p : NetxPoll}
    {used : List Nat}, polls.lookup poll = some p → PollInv p used → es.Perm (p.entries used) →
    (∀ c ∈ cs, AllReady es c) →
    ∃ outs polls', waitRun poll m cs polls = some (outs, polls') ∧ outs.length = cs.length ∧
      (es.length ≤ m → ∀ out ∈ outs, (es.map Prod.fst).Perm (out.map Prod.fst)) ∧
      (m ≤ es.length → ∀ out ∈ outs,
        out.map Prod.fst = ((p.entries used).map Prod.fst).take m) := by
  intro cs
  induction cs with
  | nil => exact fun _ _ _ _ => ⟨[], _, rfl, rfl, by simp, by simp⟩
  | cons c cs ih =>
    intro polls p used hl hi hp hready
    obtain ⟨ret, out, polls₁, p₁, used₁, hw, hl₁, hi₁, hp₁, hout, hsame⟩ :=
      netxWait_allReady hl hi (hs.perm hp) hm ((hready c (by simp)).perm hp)
    obtain ⟨outs, polls₂, hrun, hlen, hall, hfirst⟩ := ih hl₁ hi₁ (hp.trans hp₁)
      fun c' hc' => hready c' (List.mem_cons_of_mem _ hc')
    refine ⟨out :: outs, polls₂, by rw [waitRun, hw]; simp [hrun], by simp [hlen], ?_, ?_⟩
    · intro hle out' hout'
      rcases List.mem_cons.1 hout' with rfl | hmem
      · rw [hout, List.take_of_length_le (by rw [List.length_map, ← hp.length_eq]; exact hle)]
        exact hp.map _
      · exact hall hle out' hmem
    · intro hle out' hout'
      rcases List.mem_cons.1 hout' with rfl | hmem
      · exact hout
      · rw [← hsame (by rw [← hp.length_eq]; exact hle)]
        exact hfirst hle out' hmem

/-- **Fairness of `netx_wait`**: when `select` reports every registration ready in each of `n` calls,
`n` being their number, all of them are reported exactly when the array has room for `n` events. -/
theorem netxWait_serves_all_iff {polls : NetxPolls} (hreach : Reachable polls) {poll : Int}
    {p : NetxPoll} (hl : polls.lookup poll = some p) :
    ∃ used, PollInv p used ∧
      ((∀ e ∈ p.entries used, e.1 < FD_SETSIZE) → (∃ e ∈ p.entries used, 0 < e.1) →
        ∀ (m : Nat) (calls : List WaitCall), 1 ≤ m → calls.length = used.length →
          (∀ c ∈ calls, AllReady (p.entries used) c) →
          ∃ outs polls', waitRun poll m calls polls = some (outs, polls') ∧
            ((∀ e ∈ p.entries used, ∃ out ∈ outs, e.1 ∈ out.map Prod.fst) ↔ used.length ≤ m)) := by
  obtain ⟨-, -, used, hi⟩ := hreach.inv.live _ p (NetxPolls.lookup_eq_some.1 hl).2
  refine ⟨used, hi, fun hbound hpos m calls hm hn hready => ?_⟩
  have hlen : (p.entries used).length = used.length := by rw [entries, List.length_map]
  have hs : Selectable (p.entries used) :=
    ⟨fun e he => (inFdSet_iff hi he).2 (hbound e he), hpos⟩
  obtain ⟨outs, polls', hrun, houts, hall, hfirst⟩ :=
    waitRun_allReady hm hs calls hl hi (List.Perm.refl _) hready
  refine ⟨outs, polls', hrun, fun hserved => ?_, fun hle e he => ?_⟩
  · by_contra hgt
    have hsub : (p.entries used).map Prod.fst ⊆ ((p.entries used).map Prod.fst).take m := by
      intro fd hfd
      obtain ⟨e, he, rfl⟩ := List.mem_map.1 hfd
      obtain ⟨out, hout, hmem⟩ := hserved e he
      rw [hfirst (by omega) out hout] at hmem
      exact hmem
    have hnodup : ((p.entries used).map Prod.fst).Nodup := by
      rw [entries_fst]
      exact hi.fdNodup
    have := (hnodup.subperm hsub).length_le
    rw [List.length_take, List.length_map] at this
    omega
  · cases outs with
    | nil =>
      have := List.length_pos_of_mem he
      rw [List.length_nil] at houts
      omega
    | cons out outs =>
      exact ⟨out, by simp, (hall (by omega) out (by simp)).mem_iff.1 (List.mem_map_of_mem he)⟩

/-! ## Two ready connections -/

def addBoth : List CtlCall :=
  [⟨netxCtlAdd, 1, some ⟨netxEventIn, 1⟩⟩, ⟨netxCtlAdd, 2, some ⟨netxEventIn, 2⟩⟩]

def bothEntries : List (Int × NetxEvent) := [(1, ⟨netxEventIn, 1⟩), (2, ⟨netxEventIn, 2⟩)]

def readyCall : WaitCall := ⟨0, fun _ fs _ _ => (1, fs)⟩

theorem allReady_readyCall : AllReady bothEntries readyCall := by
  unfold AllReady
  decide

theorem exists_addBoth : ∃ rets polls p used,
    ctlRun 1 addBoth (netxCreate NetxPolls.init 2 true true).2 = some (rets, polls) ∧
    Reachable polls ∧ polls.lookup 1 = some p ∧ PollInv p used ∧ p.entries used = bothEntries := by
  have hreach := Reachable.init.create 2 true true
  obtain ⟨-, hl₀⟩ := lookup_create Reachable.init.inv
    (rfl : netxCreate NetxPolls.init 2 true true = (1, _)) (by decide)
  obtain ⟨rets, polls, hrun, ⟨p, hl, used, hi, -, hm⟩, -⟩ := @ctlRun_simulates 1 2 addBoth _
    OrdMap.empty ⟨_, hl₀, [], initPoll_inv (by decide), rfl, rfl⟩
  exact ⟨rets, polls, p, used, hrun, hreach.ctlRun hrun, hl, hi, hm.trans rfl⟩

/-- An array of two events serves both. -/
theorem netxWait_serves_all_iff_addBoth : ∃ polls outs polls', Reachable polls ∧
    waitRun 1 2 [readyCall, readyCall] polls = some (outs, polls') ∧
    ∀ e ∈ bothEntries, ∃ out ∈ outs, e.1 ∈ out.map Prod.fst := by
  obtain ⟨rets, polls, p, used, -, hreach, hl, hi, hm⟩ := exists_addBoth
  obtain ⟨used', hi', hserve⟩ := netxWait_serves_all_iff hreach hl
  obtain rfl := hi.unique hi'
  have hlen : used.length = 2 := by
    have := congrArg List.length hm
    rwa [entries, List.length_map] at this
  rw [hm] at hserve
  obtain ⟨outs, polls', hrun, hiff⟩ := hserve (by decide) (by decide) 2 [readyCall, readyCall]
    (by decide) hlen.symm (by simp [allReady_readyCall])
  exact ⟨polls, outs, polls', hreach, hrun, hiff.2 hlen.le⟩

/-- With an array of one event the second connection is never reported. -/
theorem netxWait_starves : ∃ polls p used outs polls', Reachable polls ∧
    polls.lookup 1 = some p ∧ PollInv p used ∧ p.entries used = bothEntries ∧
    (∀ c ∈ [readyCall, readyCall], AllReady (p.entries used) c) ∧
    waitRun 1 1 [readyCall, readyCall] polls = some (outs, polls') ∧
    ∀ out ∈ outs, (2 : Int) ∉ out.map Prod.fst := by
  obtain ⟨rets, polls, p, used, -, hreach, hl, hi, hm⟩ := exists_addBoth
  have hready : ∀ c ∈ [readyCall, readyCall], AllReady bothEntries c := by
    simp [allReady_readyCall]
  obtain ⟨outs, polls', hrun, -, -, hfirst⟩ := @waitRun_allReady 1 1 (by decide) bothEntries
    ⟨by decide, by decide⟩ [readyCall, readyCall] polls p used hl hi (by rw [hm]) hready
  refine ⟨polls, p, used, outs, polls', hreach, hl, hi, hm, by rw [hm]; exact hready, hrun, ?_⟩
  intro out hout
  rw [hfirst (by decide) out hout, hm]
  decide

end FwkMlib.Netx
