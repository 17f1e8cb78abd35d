import FwkMlib.Netx.WaitReport

/-!
# Which fds `netx_wait` can handle

`netx_ctl` takes any fd from `0` on. `netx_wait` uses it in two more ways: as the index of a bit in
an `fd_set`, and for the running maximum that starts at `SOCK_DEFAULT`, itself the fd `0`.

* `netxWait_reports_iff` : a ready event is reported exactly when a watched fd is above `0` and all
  of them are below `FD_SETSIZE`;
* `netxWait_inFdSet` : on every reachable table the bitmap accesses stay inside exactly when the
  watched fds are below `FD_SETSIZE`, and they always do in a history that never asks to watch a
  larger one.
-/

namespace FwkMlib.Netx
open FwkMlib.Lib NetxPoll

/-! ## The first loop -/

theorem watch_eq_none {bit : Nat} {item : NetxItem} (fs : FdSet) (m : Int)
    (hbit : item.event.events &&& bit ≠ 0) (hfd : ¬ InFdSet item.fd) :
    watch bit item fs m = none := by
  unfold watch
  rw [if_pos hbit, FD_SET, if_neg hfd]
  rfl

/-- A watched fd outside the bitmaps stops the loop at its first `FD_SET`. -/
theorem watchItem_eq_none {item : NetxItem} (fs : FdSets × Int) (hw : Watched item.entry)
    (hfd : ¬ InFdSet item.fd) : watchItem item fs = none := by
  unfold watchItem
  apply Option.bind_eq_none_iff.2
  intro ⟨fsIn, m₁⟩ hin
  apply Option.bind_eq_none_iff.2
  intro ⟨fsOut, m₂⟩ hout
  apply Option.bind_eq_none_iff.2
  intro ⟨fsEt, m₃⟩ het
  rcases hw with h | h | h
  · rw [watch_eq_none _ _ h hfd] at hin
    cases hin
  · rw [watch_eq_none _ _ h hfd] at hout
    cases hout
  · rw [watch_eq_none _ _ h hfd] at het
    cases het

theorem foldlM_watchItem_eq_none {items : List NetxItem} {item : NetxItem} (hitem : item ∈ items)
    (hw : Watched item.entry) (hfd : ¬ InFdSet item.fd) : ∀ fs : FdSets × Int,
    items.foldlM (fun fs item => watchItem item fs) fs = none := by
  induction items with
  | nil => exact absurd hitem List.not_mem_nil
  | cons i items ih =>
    intro fs
    rw [List.foldlM_cons]
    rcases List.mem_cons.1 hitem with rfl | hitem
    · rw [watchItem_eq_none fs hw hfd]
      rfl
    · apply Option.bind_eq_none_iff.2
      exact fun fs' _ => ih hitem fs'

theorem le_maxWatched (es : List (Int × NetxEvent)) : ∀ m : Int, m ≤ maxWatched es m := by
  induction es with
  | nil => exact fun m => le_refl m
  | cons e es ih =>
    intro m
    have h := ih (if Watched e ∧ m < e.1 then e.1 else m)
    apply le_trans _ h
    split_ifs with hlt
    · exact hlt.2.le
    · exact le_refl m

/-! ## One wait -/

namespace NetxPoll

variable {p : NetxPoll} {used : List Nat}

theorem wait_eq_none (hi : PollInv p used) {e : Int × NetxEvent} (he : e ∈ p.entries used)
    (hw : Watched e) (hfd : FD_SETSIZE ≤ e.1) (max timeout : Nat) (select : Select) :
    p.wait max timeout select = none := by
  have hout : ¬ InFdSet e.1 := fun h => absurd h.2 (Int.not_lt.2 hfd)
  obtain ⟨j, hj, rfl⟩ := List.mem_map.1 he
  cases used with
  | nil => exact absurd hj List.not_mem_nil
  | cons u l =>
    have hsets : p.setSets p.maxCounts u (FdSets.zero, 0) = none := by
      rw [setSets_ring hi]
      have hj' : p.items j ∈ (u :: l).map p.items := List.mem_map_of_mem hj
      have := foldlM_watchItem_eq_none hj' hw hout (FdSets.zero, 0)
      rwa [List.foldlM_map] at this
    unfold wait
    rw [hi.usedList]
    simp only [List.head?_cons, Option.bind_eq_bind, Option.bind_some, hsets]
    rfl

/-- Without a watched fd above `0` the wait returns before `select`. -/
theorem wait_eq_zero (hi : PollInv p used) (hne : used ≠ [])
    (hfd : ∀ e ∈ p.entries used, Watched e → InFdSet e.1)
    (hzero : ¬ ∃ e ∈ p.entries used, Watched e ∧ 0 < e.1) (max timeout : Nat) (select : Select) :
    p.wait max timeout select = some (0, [], p) := by
  cases used with
  | nil => exact absurd rfl hne
  | cons u l =>
    have hms : maxWatched (p.entries (u :: l)) 0 = 0 := by
      have hle := le_maxWatched (p.entries (u :: l)) 0
      have hpos := mt maxWatched_pos_iff.1 (not_or.2 ⟨lt_irrefl 0, hzero⟩)
      omega
    unfold wait
    rw [hi.usedList]
    simp only [List.head?_cons, Option.bind_eq_bind, Option.bind_some, setSets_eq hi hfd, hms,
      if_true]

theorem wait_isSome (hi : PollInv p used) (hne : used ≠ [])
    (hfd : ∀ e ∈ p.entries used, Watched e → InFdSet e.1) {max : Nat} (hmax : 0 < max)
    (timeout : Nat) (select : Select) : (p.wait max timeout select).isSome := by
  by_cases hpos : ∃ e ∈ p.entries used, Watched e ∧ 0 < e.1
  · cases used with
    | nil => exact absurd rfl hne
    | cons u l =>
      obtain ⟨ret, fs, hsel⟩ : ∃ ret fs, select (maxWatched (p.entries (u :: l)) 0 + 1)
          (interests (p.entries (u :: l))) (timeout / 1000) (1000 * (timeout % 1000)) = (ret, fs) :=
        ⟨_, _, rfl⟩
      rw [wait_eq hi hfd hpos hmax timeout select hsel]
      split_ifs <;> rfl
  · rw [wait_eq_zero hi hne hfd hpos]
    rfl

end NetxPoll

/-! ## Ready events that are not reported -/

theorem entries_ne_nil {p : NetxPoll} {used : List Nat} {fs : FdSets}
    (h : Returned (interests (p.entries used)) fs) : used ≠ [] := by
  rintro rfl
  exact ready_ne_nil h rfl

/-- **When a ready event is reported**: `select`, asked about all registrations, answers with a
ready one, and the call reports one exactly when some watched fd is above `0` and every watched fd
fits the bitmaps. -/
theorem netxWait_reports_iff {polls : NetxPolls} (hreach : Reachable polls) {poll : Int}
    {p : NetxPoll} (hl : polls.lookup poll = some p) :
    ∃ used, PollInv p used ∧ ∀ (m timeout : Nat) (select : Select) (ret : Int) (fs : FdSets),
      1 ≤ m →
      select (maxWatched (p.entries used) 0 + 1) (interests (p.entries used))
        (timeout / 1000) (1000 * (timeout % 1000)) = (ret, fs) →
      0 < ret → Returned (interests (p.entries used)) fs →
      ((∃ out polls', netxWait polls poll true m timeout select =
          some ((out.length : Int), out, polls') ∧ 1 ≤ out.length) ↔
        (∃ e ∈ p.entries used, Watched e ∧ 0 < e.1) ∧
          ∀ e ∈ p.entries used, Watched e → e.1 < FD_SETSIZE) := by
  obtain ⟨-, -, used, hi⟩ := hreach.inv.live _ p (NetxPolls.lookup_eq_some.1 hl).2
  refine ⟨used, hi, fun m timeout select ret fs hm hsel hret hfs => ⟨?_, ?_⟩⟩
  · rintro ⟨out, polls', hw, hone⟩
    have hcounts : p.counts ≠ 0 := by
      apply counts_ne_zero hi
      exact fun h => entries_ne_nil hfs (List.map_eq_nil_iff.1 h)
    have hbound : ∀ e ∈ p.entries used, Watched e → e.1 < FD_SETSIZE := by
      intro e he hwatch
      by_contra hfd
      unfold netxWait at hw
      rw [hl] at hw
      dsimp only at hw
      rw [if_neg (not_or.2 ⟨by decide, by omega⟩), if_neg hcounts,
        wait_eq_none hi he hwatch (Int.not_lt.1 hfd)] at hw
      cases hw
    refine ⟨?_, hbound⟩
    by_contra hzero
    have hfd : ∀ e ∈ p.entries used, Watched e → InFdSet e.1 :=
      fun e he hwatch => (inFdSet_iff hi he).2 (hbound e he hwatch)
    have hwait := wait_eq_zero hi (entries_ne_nil hfs) hfd hzero m timeout select
    rw [netxWait_live hl hm hcounts hwait] at hw
    simp only [Option.some.injEq, Prod.mk.injEq] at hw
    obtain ⟨-, rfl, -⟩ := hw
    exact absurd hone (by decide)
  · rintro ⟨hpos, hbound⟩
    obtain ⟨out, p', -, hw, -, hone, -⟩ := netxWait_ready hl hi hpos hbound hm hsel hret hfs
    exact ⟨out, _, hw, hone⟩

/-- Two connections on fds `1` and `2`, the second ready. -/
theorem netxWait_reports_iff_second : ∃ polls out polls', Reachable polls ∧
    netxWait polls 1 true 1 0 secondReady = some ((out.length : Int), out, polls') ∧
    1 ≤ out.length := by
  obtain ⟨rets, polls, p, used, -, hreach, hl, hi, hm⟩ := exists_addBoth
  obtain ⟨used', hi', hiff⟩ := netxWait_reports_iff hreach hl
  obtain rfl := hi.unique hi'
  rw [hm] at hiff
  obtain ⟨out, polls', hw, hone⟩ := (hiff 1 0 secondReady 1 secondSets le_rfl rfl (by decide)
    returned_second).2 (by decide)
  exact ⟨polls, out, polls', hreach, hw, hone⟩

theorem exists_addOne (fd : Int) (hfd : 0 ≤ fd) (event : NetxEvent) : ∃ polls p used,
    ctlRun 1 [⟨netxCtlAdd, fd, some event⟩] (netxCreate NetxPolls.init 1 true true).2 =
      some ([0], polls) ∧
    Reachable polls ∧ polls.lookup 1 = some p ∧ PollInv p used ∧
    p.entries used = [(fd, event)] := by
  have hreach := Reachable.init.create 1 true true
  obtain ⟨-, hl₀⟩ := lookup_create Reachable.init.inv
    (rfl : netxCreate NetxPolls.init 1 true true = (1, _)) (by decide)
  obtain ⟨rets, polls, hrun, ⟨p, hl, used, hi, -, hm⟩, hacc⟩ := @ctlRun_simulates 1 1
    [⟨netxCtlAdd, fd, some event⟩] _ OrdMap.empty ⟨_, hl₀, [], initPoll_inv (by decide), rfl, rfl⟩
  have hctl : FdMap.ctl (OrdMap.empty : FdMap 1) netxCtlAdd fd (some event) =
      OrdMap.insert? OrdMap.empty fd event := by
    rw [FdMap.ctl_add, if_pos hfd]
    rfl
  have hrets : rets = [0] := by
    have hone : FdMap.accepts [⟨netxCtlAdd, fd, some event⟩] (OrdMap.empty : FdMap 1) = [true] := by
      show [(FdMap.ctl (OrdMap.empty : FdMap 1) netxCtlAdd fd (some event)).isSome] = _
      rw [hctl]
      rfl
    rw [hone] at hacc
    obtain ⟨ret, rets', rfl, hret, hnil⟩ := List.map_eq_cons_iff.1 hacc
    rw [List.map_eq_nil_iff.1 hnil, of_decide_eq_true hret]
  subst hrets
  refine ⟨polls, p, used, hrun, hreach.ctlRun hrun, hl, hi, hm.trans ?_⟩
  show ((FdMap.ctl OrdMap.empty netxCtlAdd fd (some event)).getD _).entries = _
  rw [hctl]
  rfl

def stdinSets : FdSets := ⟨fun fd => fd = 0, fun _ => false, fun _ => false⟩

def stdinReady : Select := fun _ _ _ _ => (1, stdinSets)

/-- Fd `0` alone is registered for input and ready: the call returns `0`. -/
theorem netxWait_misses_stdin : ∃ polls p used polls', Reachable polls ∧
    polls.lookup 1 = some p ∧ PollInv p used ∧ p.entries used = [(0, ⟨netxEventIn, 7⟩)] ∧
    Returned (interests (p.entries used)) stdinSets ∧
    netxWait polls 1 true 1 0 stdinReady = some (0, [], polls') := by
  obtain ⟨polls, p, used, -, hreach, hl, hi, hm⟩ := exists_addOne 0 le_rfl ⟨netxEventIn, 7⟩
  have hret : Returned (interests (p.entries used)) stdinSets := by
    rw [hm]
    refine ⟨fun fd hfd => ?_, fun fd hfd => absurd hfd Bool.false_ne_true,
      fun fd hfd => absurd hfd Bool.false_ne_true, ⟨0, .inl rfl⟩⟩
    obtain rfl : fd = 0 := of_decide_eq_true hfd
    decide
  have hcounts : p.counts ≠ 0 := by
    apply counts_ne_zero hi
    rw [hm]
    exact List.cons_ne_nil _ _
  have hwait := wait_eq_zero hi (entries_ne_nil hret) (by rw [hm]; decide) (by rw [hm]; decide) 1 0
    stdinReady
  exact ⟨polls, p, used, _, hreach, hl, hi, hm, hret, netxWait_live hl le_rfl hcounts hwait⟩

/-! ## The bitmap accesses -/

/-- A call that is not refused stays inside the bitmaps exactly when every watched fd does. -/
theorem netxWait_isSome_iff {polls : NetxPolls} (hinv : polls.Inv) (poll : Int) (events : Bool)
    (m timeout : Nat) (select : Select) :
    (netxWait polls poll events m timeout select).isSome ↔
      ∀ p used, polls.lookup poll = some p → PollInv p used → events = true → m ≠ 0 →
        ∀ e ∈ p.entries used, Watched e → e.1 < FD_SETSIZE := by
  unfold netxWait
  cases hl : polls.lookup poll with
  | none => exact iff_of_true rfl fun p used h => absurd h (by simp)
  | some p =>
    obtain ⟨-, -, used, hi⟩ := hinv.live _ p (NetxPolls.lookup_eq_some.1 hl).2
    dsimp only
    split_ifs with hbad hcounts
    · refine iff_of_true rfl fun _ _ _ _ hev hm => ?_
      rcases hbad with hbad | hbad
      · exact absurd (hbad.symm.trans hev) Bool.false_ne_true
      · exact absurd hbad hm
    · refine iff_of_true rfl fun q used' hq hi' _ _ e he => ?_
      obtain rfl := Option.some.inj hq
      obtain rfl := hi.unique hi'
      exact absurd hcounts (counts_ne_zero hi (List.ne_nil_of_mem he))
    · obtain ⟨hev, hm⟩ := not_or.1 hbad
      have hne : used ≠ [] := by
        rintro rfl
        exact hcounts hi.counts
      constructor
      · intro hsome q used' hq hi' _ _ e he hwatch
        obtain rfl := Option.some.inj hq
        obtain rfl := hi.unique hi'
        by_contra hfd
        rw [wait_eq_none hi he hwatch (Int.not_lt.1 hfd)] at hsome
        cases hsome
      · intro hall
        have hfd : ∀ e ∈ p.entries used, Watched e → InFdSet e.1 := fun e he hwatch =>
          (inFdSet_iff hi he).2 (hall p used rfl hi (Bool.eq_true_of_not_eq_false hev) hm e he hwatch)
        obtain ⟨res, hres⟩ := Option.isSome_iff_exists.1
          (wait_isSome hi hne hfd (Nat.pos_of_ne_zero hm) timeout select)
        rw [hres]
        rfl

/-! ## Histories that watch small fds -/

namespace NetxPolls

/-- `P` holds of every live poll object. -/
def Live (P : NetxPoll → Prop) (polls : NetxPolls) : Prop := ∀ i p, polls.slot i = some p → P p

variable {P : NetxPoll → Prop} {polls : NetxPolls}

theorem Live.setSlot (h : Live P polls) (i : Nat) {v : Option NetxPoll}
    (hv : ∀ p, v = some p → P p) : Live P (polls.setSlot i v) := by
  intro j p hp
  rw [slot_setSlot] at hp
  split_ifs at hp
  · exact hv p hp
  · exact h j p hp

theorem Live.grow (h : Live P polls) : Live P polls.grow := by
  intro j p hp
  apply h j p
  unfold slot NetxPolls.grow at hp
  simp only [Option.getD_some, List.getElem?_append] at hp
  split_ifs at hp with hj
  · exact hp
  · rw [List.getElem?_replicate] at hp
    split_ifs at hp <;> cases hp

theorem Live.create (h : Live P polls) (hnew : ∀ n, P (initPoll n)) (maxCounts : Nat)
    (listOk pollOk : Bool) : Live P (netxCreate polls maxCounts listOk pollOk).2 := by
  obtain ⟨ret, polls', hr⟩ : ∃ ret polls', netxCreate polls maxCounts listOk pollOk = (ret, polls') :=
    ⟨_, _, rfl⟩
  rw [hr]
  rcases netxCreate_cases hr with ⟨-, rfl⟩ | ⟨t, ht, hcases⟩
  · exact h
  have hgrown : Live P t := by
    rcases ht with ⟨-, rfl⟩ | ⟨-, rfl⟩
    · exact h
    · exact h.grow
  rcases hcases with ⟨-, rfl, -⟩ | ⟨i, -, ⟨-, rfl⟩ | ⟨-, -, rfl⟩⟩
  · exact hgrown
  · exact hgrown
  · apply hgrown.setSlot i
    rintro p ⟨⟩
    exact hnew _

theorem Live.destroy (h : Live P polls) (poll : Int) : Live P (netxDestroy polls poll).2 := by
  unfold netxDestroy
  cases polls.lookup poll with
  | none => exact h
  | some p =>
    have hset : Live P (polls.setSlot (poll.toNat - 1) none) := h.setSlot _ (by simp)
    dsimp only
    split_ifs
    · exact h
    · exact fun i q hq => absurd hq (by simp [slot])
    · exact hset

end NetxPolls

def Narrow (p : NetxPoll) : Prop :=
  ∀ used, PollInv p used → ∀ e ∈ p.entries used, Watched e → e.1 < FD_SETSIZE

/-- The tables after any calls, as long as `netx_ctl` is only asked to watch fds below
`FD_SETSIZE`. -/
inductive NarrowRun : NetxPolls → Prop
  | init : NarrowRun NetxPolls.init
  | create {polls : NetxPolls} (maxCounts : Nat) (listOk pollOk : Bool) (h : NarrowRun polls) :
      NarrowRun (netxCreate polls maxCounts listOk pollOk).2
  | destroy {polls : NetxPolls} (poll : Int) (h : NarrowRun polls) :
      NarrowRun (netxDestroy polls poll).2
  | ctl {polls polls' : NetxPolls} {poll : Int} {operation : Nat} {fd : Int}
      {event : Option NetxEvent} {ret : Int} (h : NarrowRun polls)
      (hfd : ∀ ev, event = some ev → Watched (fd, ev) → fd < FD_SETSIZE)
      (hc : netxCtl polls poll operation fd event = some (ret, polls')) : NarrowRun polls'
  | wait {polls polls' : NetxPolls} {poll : Int} {events : Bool} {max timeout : Nat}
      {select : Select} {ret : Int} {out : List (Int × NetxEvent)} (h : NarrowRun polls)
      (hw : netxWait polls poll events max timeout select = some (ret, out, polls')) :
      NarrowRun polls'

theorem NarrowRun.reachable {polls : NetxPolls} (h : NarrowRun polls) : Reachable polls := by
  induction h with
  | init => exact .init
  | create maxCounts listOk pollOk _ ih => exact ih.create maxCounts listOk pollOk
  | destroy poll _ ih => exact ih.destroy poll
  | ctl _ _ hc ih => exact ih.ctl hc
  | wait _ hw ih => exact ih.wait hw

/-- A registration after a call was there before, or is the one of the call. -/
theorem FdMap.mem_ctl {cap : Nat} {m m' : FdMap cap} {operation : Nat} {fd : Int}
    {event : Option NetxEvent} (h : FdMap.ctl m operation fd event = some m')
    {e : Int × NetxEvent} (he : e ∈ m'.entries) :
    e ∈ m.entries ∨ (e.1 = fd ∧ event = some e.2) := by
  unfold FdMap.ctl at h
  split_ifs at h
  · obtain ⟨ev, rfl, hins⟩ := Option.bind_eq_some_iff.1 h
    rw [(OrdMap.insert?_eq_some.1 hins).2.2] at he
    rcases List.mem_append.1 he with he | he
    · exact .inl he
    · obtain rfl := List.mem_singleton.1 he
      exact .inr ⟨rfl, rfl⟩
  · obtain ⟨ev, rfl, hmod⟩ := Option.bind_eq_some_iff.1 h
    rw [(OrdMap.modify?_eq_some.1 hmod).2] at he
    obtain ⟨e', he', rfl⟩ := List.mem_map.1 he
    unfold OrdMap.replace
    split_ifs
    · exact .inr ⟨rfl, rfl⟩
    · exact .inl he'
  · rw [(OrdMap.erase?_eq_some.1 h).2] at he
    exact .inl (List.mem_of_mem_filter he)

theorem Narrow.ctl {p q : NetxPoll} {operation : Nat} {fd : Int} {event : Option NetxEvent}
    {ret : Int} (hn : Narrow p) {used : List Nat} (hi : PollInv p used) (hfd : 0 ≤ fd)
    (hev : operation = netxCtlDel ∨ ∃ ev, event = some ev)
    (hsmall : ∀ ev, event = some ev → Watched (fd, ev) → fd < FD_SETSIZE)
    (hc : p.ctl operation fd event = some (ret, q)) : Narrow q := by
  have hrep : p.Represents (⟨p.entries used, by rw [entries_fst]; exact hi.fdNodup, by
      rw [entries, List.length_map]; exact hi.length_le⟩ : FdMap p.maxCounts) :=
    ⟨used, hi, rfl, rfl⟩
  obtain ⟨r, q', hrun, hans⟩ := ctl_simulates hrep hfd hev
  rw [hrun] at hc
  cases hc
  unfold Answers at hans
  split at hans
  · rw [hans.2]
    exact hn
  · next m' hm' =>
    obtain ⟨-, used', hi', -, hent⟩ := hans
    intro used'' hi'' e he hwatch
    obtain rfl := hi'.unique hi''
    rw [hent] at he
    rcases FdMap.mem_ctl hm' he with hold | ⟨rfl, hnew⟩
    · exact hn used hi e hold hwatch
    · exact hsmall e.2 hnew hwatch

theorem Narrow.wait {p q : NetxPoll} {max timeout : Nat} {select : Select} {ret : Int}
    {out : List (Int × NetxEvent)} (hn : Narrow p) {used : List Nat} (hi : PollInv p used)
    (hw : p.wait max timeout select = some (ret, out, q)) : Narrow q := by
  rcases wait_poll hw with rfl | ⟨head, hu, rfl⟩
  · exact hn
  · cases used with
    | nil => exact absurd (hu.symm.trans hi.usedList) (by simp)
    | cons u l =>
      obtain rfl : head = u := Option.some.inj (hu.symm.trans hi.usedList)
      intro used' hi' e he hwatch
      obtain rfl := (rotate_inv hi).unique hi'
      refine hn _ hi e ?_ hwatch
      obtain ⟨j, hj, rfl⟩ := List.mem_map.1 he
      apply List.mem_map.2
      exact ⟨j, (List.perm_append_singleton head l).mem_iff.1 hj, rfl⟩

theorem NarrowRun.live {polls : NetxPolls} (h : NarrowRun polls) : polls.Live Narrow := by
  induction h with
  | init => exact fun i p hp => absurd hp (by simp [NetxPolls.slot, NetxPolls.init])
  | create maxCounts listOk pollOk _ ih =>
    apply ih.create
    intro n used hi e he
    obtain rfl : used = [] := List.length_eq_zero_iff.1 hi.counts.symm
    exact absurd he List.not_mem_nil
  | destroy poll _ ih => exact ih.destroy poll
  | @ctl polls polls' poll _ fd _ _ h hfd hc ih =>
    unfold netxCtl at hc
    cases hl : polls.lookup poll with
    | none => rw [hl] at hc; cases hc; exact ih
    | some p =>
      rw [hl] at hc
      dsimp only at hc
      split_ifs at hc with hbad
      · cases hc; exact ih
      · obtain ⟨⟨r, q⟩, hrun, hc⟩ := Option.bind_eq_some_iff.1 hc
        cases hc
        obtain ⟨hneg, hev⟩ := not_or.1 hbad
        have hslot := (NetxPolls.lookup_eq_some.1 hl).2
        obtain ⟨-, -, used, hi⟩ := h.reachable.inv.live _ p hslot
        apply ih.setSlot
        rintro q' ⟨⟩
        exact (ih _ p hslot).ctl hi (Int.not_lt.1 hneg) (del_or_event hev) hfd hrun
  | @wait polls polls' poll _ _ _ _ _ _ h hw ih =>
    unfold netxWait at hw
    cases hl : polls.lookup poll with
    | none => rw [hl] at hw; cases hw; exact ih
    | some p =>
      rw [hl] at hw
      dsimp only at hw
      split_ifs at hw
      · cases hw; exact ih
      · cases hw; exact ih
      · obtain ⟨⟨r, o, q⟩, hrun, hw⟩ := Option.bind_eq_some_iff.1 hw
        cases hw
        have hslot := (NetxPolls.lookup_eq_some.1 hl).2
        obtain ⟨-, -, used, hi⟩ := h.reachable.inv.live _ p hslot
        apply ih.setSlot
        rintro q' ⟨⟩
        exact (ih _ p hslot).wait hi hrun

/-- **The bitmap accesses of `netx_wait`**: on a reachable table they all stay inside exactly when
the call is refused or no watched fd is `FD_SETSIZE` or more, and in a history that only asks to
watch smaller ones they always do. -/
theorem netxWait_inFdSet {polls : NetxPolls} (hreach : Reachable polls) (poll : Int) (events : Bool)
    (m timeout : Nat) (select : Select) :
    ((netxWait polls poll events m timeout select).isSome ↔
      ∀ p used, polls.lookup poll = some p → PollInv p used → events = true → m ≠ 0 →
        ∀ e ∈ p.entries used, Watched e → e.1 < FD_SETSIZE) ∧
    (NarrowRun polls → (netxWait polls poll events m timeout select).isSome) := by
  have hiff := netxWait_isSome_iff hreach.inv poll events m timeout select
  refine ⟨hiff, fun hrun => hiff.2 fun p used hl hi _ _ => ?_⟩
  exact hrun.live _ p (NetxPolls.lookup_eq_some.1 hl).2 used hi

/-- Fd `5` is registered for input. -/
theorem netxWait_inFdSet_five : ∃ polls, NarrowRun polls ∧ (polls.lookup 1).isSome ∧
    (netxWait polls 1 true 1 0 secondReady).isSome := by
  obtain ⟨polls, p, -, hrun, -, hl, -⟩ := exists_addOne 5 (by decide) ⟨netxEventIn, 7⟩
  unfold ctlRun at hrun
  obtain ⟨⟨ret, polls₁⟩, hc, hrun⟩ := Option.bind_eq_some_iff.1 hrun
  cases hrun
  have hnarrow : NarrowRun polls := by
    apply (NarrowRun.init.create 1 true true).ctl _ hc
    exact fun _ _ _ => by decide
  have hinside := netxWait_inFdSet hnarrow.reachable 1 true 1 0 secondReady
  exact ⟨polls, hnarrow, by rw [hl]; rfl, hinside.2 hnarrow⟩

/-- Capacity one and fd `FD_SETSIZE`: the registration is accepted, the wait leaves the bitmap. -/
theorem netxWait_outside : ∃ polls p used,
    ctlRun 1 [⟨netxCtlAdd, 1024, some ⟨netxEventIn, 7⟩⟩]
      (netxCreate NetxPolls.init 1 true true).2 = some ([0], polls) ∧
    Reachable polls ∧ polls.lookup 1 = some p ∧ PollInv p used ∧
    p.entries used = [(1024, ⟨netxEventIn, 7⟩)] ∧
    netxWait polls 1 true 1 0 stdinReady = none := by
  obtain ⟨polls, p, used, hrun, hreach, hl, hi, hm⟩ :=
    exists_addOne 1024 (by decide) ⟨netxEventIn, 7⟩
  refine ⟨polls, p, used, hrun, hreach, hl, hi, hm, ?_⟩
  apply Option.not_isSome_iff_eq_none.1
  intro hsome
  have hall := (netxWait_isSome_iff hreach.inv 1 true 1 0 stdinReady).1 hsome p used hl hi rfl
    (by decide)
  rw [hm] at hall
  exact absurd hall (by decide)

end FwkMlib.Netx
