import FwkMlib.Netx.Refine
import FwkMlib.Netx.WaitSpec

/-!
# Runs over the handle table

`Reachable` : the handle tables after any calls of `netx_create`, `netx_destroy`, `netx_ctl` and
`netx_wait`. Every live poll object of a reachable table satisfies `PollInv` (`Reachable.inv`).
`lookup_create` : what a returned handle stands for.
-/

namespace FwkMlib.Netx
open FwkMlib.Lib NetxPoll

namespace NetxPolls

theorem slot_setSlot (polls : NetxPolls) (i j : Nat) (v : Option NetxPoll) :
    (polls.setSlot i v).slot j =
      if j = i ∧ i < (polls.list.getD []).length then v else polls.slot j := by
  unfold slot setSlot
  cases polls.list with
  | none => simp
  | some list =>
    simp only [Option.map_some, Option.getD_some, List.getElem?_set]
    by_cases h : i = j
    · subst h
      by_cases hi : i < list.length <;> simp [hi]
    · simp [h, Ne.symm h]

theorem slot_some_lt {polls : NetxPolls} {i : Nat} {p : NetxPoll} (h : polls.slot i = some p) :
    i < (polls.list.getD []).length := by
  unfold slot at h
  by_contra hlt
  rw [List.getElem?_eq_none (Nat.le_of_not_lt hlt)] at h
  cases h

theorem setSlot_slot (polls : NetxPolls) (i : Nat) : polls.setSlot i (polls.slot i) = polls := by
  unfold setSlot slot
  cases hl : polls.list with
  | none => rw [Option.map_none, ← hl]
  | some list =>
    have hset : list.set i (list[i]?).join = list := by
      by_cases hi : i < list.length
      · rw [List.getElem?_eq_getElem hi]
        exact List.set_getElem_self hi
      · exact List.set_eq_of_length_le (Nat.le_of_not_lt hi)
    rw [Option.map_some, Option.getD_some, hset, ← hl]

theorem setSlot_self {polls : NetxPolls} {i : Nat} {p : NetxPoll} (h : polls.slot i = some p) :
    polls.setSlot i (some p) = polls := by
  rw [← h]
  exact setSlot_slot polls i

theorem lookup_eq_some {polls : NetxPolls} {poll : Int} {p : NetxPoll} :
    polls.lookup poll = some p ↔
      (0 < poll ∧ poll.toNat ≤ polls.maxCounts) ∧ polls.slot (poll.toNat - 1) = some p := by
  unfold lookup
  split_ifs with h
  · exact ⟨fun hs => ⟨h, hs⟩, And.right⟩
  · exact ⟨fun hs => absurd hs (by simp), fun hs => absurd hs.1 h⟩

theorem lookup_setSlot {polls : NetxPolls} {poll : Int} {p : NetxPoll}
    (h : polls.lookup poll = some p) (q : NetxPoll) :
    (polls.setSlot (poll.toNat - 1) (some q)).lookup poll = some q := by
  rw [lookup_eq_some] at h ⊢
  exact ⟨h.1, by rw [slot_setSlot, if_pos ⟨rfl, slot_some_lt h.2⟩]⟩

/-- The table's array has its recorded length and holds well-formed poll objects only. -/
structure Inv (polls : NetxPolls) : Prop where
  length : (polls.list.getD []).length = polls.maxCounts
  live : ∀ i p, polls.slot i = some p →
    1 ≤ p.maxCounts ∧ p.maxCounts ≤ FD_SETSIZE ∧ ∃ used, PollInv p used

theorem length_setSlot (polls : NetxPolls) (i : Nat) (v : Option NetxPoll) :
    ((polls.setSlot i v).list.getD []).length = (polls.list.getD []).length := by
  unfold setSlot
  cases polls.list <;> simp

theorem Inv.setSlot {polls : NetxPolls} (h : Inv polls) (i : Nat) {v : Option NetxPoll}
    (hv : ∀ p, v = some p → 1 ≤ p.maxCounts ∧ p.maxCounts ≤ FD_SETSIZE ∧ ∃ used, PollInv p used) :
    Inv (polls.setSlot i v) := by
  refine ⟨(length_setSlot polls i v).trans h.length, fun j p hp => ?_⟩
  rw [slot_setSlot] at hp
  split_ifs at hp with hj
  · exact hv p hp
  · exact h.live j p hp

theorem Inv.grow {polls : NetxPolls} (h : Inv polls) : Inv polls.grow := by
  refine ⟨?_, fun j p hp => h.live j p ?_⟩
  · simp [NetxPolls.grow, h.length]
  · unfold slot NetxPolls.grow at hp
    simp only [Option.getD_some, List.getElem?_append] at hp
    split_ifs at hp with hj
    · exact hp
    · rw [List.getElem?_replicate] at hp
      split_ifs at hp <;> cases hp

end NetxPolls

/-- The ways out of `netx_create`; `t` is the table after a possible reallocation. -/
theorem netxCreate_cases {polls polls' : NetxPolls} {maxCounts : Nat} {listOk pollOk : Bool}
    {ret : Int} (h : netxCreate polls maxCounts listOk pollOk = (ret, polls')) :
    ((ret = -1 ∨ ret = -3) ∧ polls' = polls) ∨
    ∃ t, (polls.counts < polls.maxCounts ∧ t = polls ∨
        polls.maxCounts ≤ polls.counts ∧ t = polls.grow) ∧
      ((ret = -5 ∧ polls' = t ∧ ∀ i < t.maxCounts, t.slot i ≠ none) ∨
        ∃ i, (i < t.maxCounts ∧ t.slot i = none) ∧
          ((ret = -4 ∧ polls' = t) ∨ (1 ≤ maxCounts ∧ ret = (i + 1 : Nat) ∧ polls' =
            { t.setSlot i (some (initPoll (min maxCounts FD_SETSIZE))) with
              counts := t.counts + 1 }))) := by
  unfold netxCreate at h
  by_cases h₀ : maxCounts = 0
  · rw [if_pos h₀] at h
    cases h
    exact .inl ⟨.inl rfl, rfl⟩
  by_cases h₁ : polls.counts ≥ polls.maxCounts ∧ listOk = false
  · rw [if_neg h₀] at h
    simp only [if_pos h₁] at h
    cases h
    exact .inl ⟨.inr rfl, rfl⟩
  have hmin : (if maxCounts > FD_SETSIZE then FD_SETSIZE else maxCounts) =
      min maxCounts FD_SETSIZE := by
    split_ifs <;> omega
  obtain ⟨t, ht⟩ : ∃ t, t = if polls.counts ≥ polls.maxCounts then polls.grow else polls := ⟨_, rfl⟩
  rw [if_neg h₀] at h
  simp only [if_neg h₁, hmin, ← ht] at h
  refine .inr ⟨t, ?_, ?_⟩
  · rw [ht]
    split_ifs with hfull
    · exact .inr ⟨hfull, rfl⟩
    · exact .inl ⟨Nat.lt_of_not_le hfull, rfl⟩
  cases hf : (List.range t.maxCounts).find? (fun i => (t.slot i).isNone) with
  | none =>
    rw [hf] at h
    cases h
    refine .inl ⟨rfl, rfl, fun i hi hn => ?_⟩
    have := List.find?_eq_none.1 hf i (List.mem_range.2 hi)
    exact this (by rw [hn]; rfl)
  | some i =>
    have hi : i < t.maxCounts := List.mem_range.1 (List.mem_of_find?_eq_some hf)
    have hnone : t.slot i = none := by simpa using List.find?_some hf
    rw [hf] at h
    refine .inr ⟨i, ⟨hi, hnone⟩, ?_⟩
    by_cases hp : pollOk = false
    · simp only [if_pos hp] at h
      cases h
      refine .inl ⟨rfl, ?_⟩
      have hset := NetxPolls.setSlot_slot t i
      rwa [hnone] at hset
    · simp only [if_neg hp] at h
      cases h
      exact .inr ⟨Nat.pos_of_ne_zero h₀, rfl, rfl⟩

namespace NetxPolls

theorem Inv.create {polls : NetxPolls} (h : Inv polls) (maxCounts : Nat) (listOk pollOk : Bool) :
    Inv (netxCreate polls maxCounts listOk pollOk).2 := by
  obtain ⟨ret, polls', hr⟩ : ∃ ret polls', netxCreate polls maxCounts listOk pollOk = (ret, polls') :=
    ⟨_, _, rfl⟩
  rw [hr]
  rcases netxCreate_cases hr with ⟨-, rfl⟩ | ⟨t, ht, hcases⟩
  · exact h
  have hinv : Inv t := by
    rcases ht with ⟨-, rfl⟩ | ⟨-, rfl⟩
    · exact h
    · exact h.grow
  rcases hcases with ⟨-, rfl, -⟩ | ⟨i, -, ⟨-, rfl⟩ | ⟨hmax, -, rfl⟩⟩
  · exact hinv
  · exact hinv
  · have hlive : ∀ p, some (initPoll (min maxCounts FD_SETSIZE)) = some p →
        1 ≤ p.maxCounts ∧ p.maxCounts ≤ FD_SETSIZE ∧ ∃ used, PollInv p used := by
      intro p hp
      cases hp
      have h1 : 1 ≤ min maxCounts FD_SETSIZE := by unfold FD_SETSIZE; omega
      exact ⟨h1, Nat.min_le_right _ _, [], initPoll_inv h1⟩
    have hset := hinv.setSlot i hlive
    exact ⟨hset.length, hset.live⟩

theorem Inv.destroy {polls : NetxPolls} (h : Inv polls) (poll : Int) :
    Inv (netxDestroy polls poll).2 := by
  unfold netxDestroy
  cases polls.lookup poll with
  | none => exact h
  | some p =>
    have hset : Inv (polls.setSlot (poll.toNat - 1) none) := h.setSlot _ (by simp)
    simp only
    split_ifs
    · exact h
    · exact ⟨rfl, fun i p hp => by simp [slot] at hp⟩
    · exact ⟨hset.length, hset.live⟩

theorem Inv.ctl {polls polls' : NetxPolls} (h : Inv polls) {poll : Int} {operation : Nat} {fd : Int}
    {event : Option NetxEvent} {ret : Int}
    (hc : netxCtl polls poll operation fd event = some (ret, polls')) : Inv polls' := by
  unfold netxCtl at hc
  cases hl : polls.lookup poll with
  | none => rw [hl] at hc; cases hc; exact h
  | some p =>
    rw [hl] at hc
    simp only at hc
    split_ifs at hc with hbad
    · cases hc; exact h
    · obtain ⟨h1, h2, used, hp⟩ := h.live _ p (lookup_eq_some.1 hl).2
      obtain ⟨hfd, hev⟩ := not_or.1 hbad
      have hrep : p.Represents (⟨p.entries used, by rw [entries_fst]; exact hp.fdNodup, by
          rw [entries, List.length_map]; exact hp.length_le⟩ : FdMap p.maxCounts) :=
        ⟨used, hp, rfl, rfl⟩
      obtain ⟨r, q, hrun, hans⟩ := ctl_simulates hrep (Int.not_lt.1 hfd) (del_or_event hev)
      rw [hrun] at hc
      cases hc
      refine h.setSlot _ fun q' hq' => ?_
      cases hq'
      unfold Answers at hans
      split at hans
      · rw [hans.2]; exact ⟨h1, h2, used, hp⟩
      · obtain ⟨-, used', hq, hmax, -⟩ := hans
        exact ⟨hmax ▸ h1, hmax ▸ h2, used', hq⟩

theorem Inv.wait {polls polls' : NetxPolls} (h : Inv polls) {poll : Int} {events : Bool}
    {max timeout : Nat} {select : Select} {ret : Int} {out : List (Int × NetxEvent)}
    (hw : netxWait polls poll events max timeout select = some (ret, out, polls')) : Inv polls' := by
  unfold netxWait at hw
  cases hl : polls.lookup poll with
  | none => rw [hl] at hw; cases hw; exact h
  | some p =>
    rw [hl] at hw
    simp only at hw
    split_ifs at hw
    · cases hw; exact h
    · cases hw; exact h
    · obtain ⟨⟨r, o, q⟩, hrun, hw⟩ := Option.bind_eq_some_iff.1 hw
      cases hw
      obtain ⟨h1, h2, used, hp⟩ := h.live _ p (lookup_eq_some.1 hl).2
      obtain ⟨hmax, hq⟩ := wait_inv hp hrun
      refine h.setSlot _ fun q' hq' => ?_
      cases hq'
      exact ⟨hmax ▸ h1, hmax ▸ h2, hq⟩

end NetxPolls

/-- The handle tables reached by calls of this module, whatever the allocator and `select` do. -/
inductive Reachable : NetxPolls → Prop
  | init : Reachable NetxPolls.init
  | create {polls : NetxPolls} (maxCounts : Nat) (listOk pollOk : Bool) (h : Reachable polls) :
      Reachable (netxCreate polls maxCounts listOk pollOk).2
  | destroy {polls : NetxPolls} (poll : Int) (h : Reachable polls) :
      Reachable (netxDestroy polls poll).2
  | ctl {polls polls' : NetxPolls} {poll : Int} {operation : Nat} {fd : Int}
      {event : Option NetxEvent} {ret : Int} (h : Reachable polls)
      (hc : netxCtl polls poll operation fd event = some (ret, polls')) : Reachable polls'
  | wait {polls polls' : NetxPolls} {poll : Int} {events : Bool} {max timeout : Nat}
      {select : Select} {ret : Int} {out : List (Int × NetxEvent)} (h : Reachable polls)
      (hw : netxWait polls poll events max timeout select = some (ret, out, polls')) :
      Reachable polls'

theorem Reachable.inv {polls : NetxPolls} (h : Reachable polls) : polls.Inv := by
  induction h with
  | init => exact ⟨rfl, fun i p hp => by simp [NetxPolls.slot, NetxPolls.init] at hp⟩
  | create maxCounts listOk pollOk _ ih => exact ih.create maxCounts listOk pollOk
  | destroy poll _ ih => exact ih.destroy poll
  | ctl _ hc ih => exact ih.ctl hc
  | wait _ hw ih => exact ih.wait hw

/-- A returned handle stands for a fresh poll object of the requested capacity. -/
theorem lookup_create {polls polls' : NetxPolls} (h : polls.Inv) {maxCounts : Nat}
    {listOk pollOk : Bool} {handle : Int}
    (hc : netxCreate polls maxCounts listOk pollOk = (handle, polls')) (hpos : 0 < handle) :
    1 ≤ maxCounts ∧ polls'.lookup handle = some (initPoll (min maxCounts FD_SETSIZE)) := by
  rcases netxCreate_cases hc with ⟨hneg, -⟩ | ⟨t, ht, hcases⟩
  · omega
  have hinv : t.Inv := by
    rcases ht with ⟨-, rfl⟩ | ⟨-, rfl⟩
    · exact h
    · exact h.grow
  rcases hcases with ⟨hneg, -, -⟩ | ⟨i, ⟨hi, -⟩, ⟨hneg, -⟩ | ⟨hmax, rfl, rfl⟩⟩
  · omega
  · omega
  · refine ⟨hmax, NetxPolls.lookup_eq_some.2 ⟨⟨hpos, ?_⟩, ?_⟩⟩
    · show ((i + 1 : Nat) : Int).toNat ≤ t.maxCounts
      rw [Int.toNat_natCast]
      exact hi
    · show (t.setSlot i _).slot (((i + 1 : Nat) : Int).toNat - 1) = _
      rw [Int.toNat_natCast, Nat.add_sub_cancel, NetxPolls.slot_setSlot,
        if_pos ⟨rfl, hinv.length ▸ hi⟩]

end FwkMlib.Netx
