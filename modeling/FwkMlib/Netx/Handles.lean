import FwkMlib.Netx.Reach

/-!
# The table of poll handles

* `Counted` : the counter of the table is the number of its occupied slots, kept by every call;
* `Handles polls live` : the runs of the module, with the handles that were returned and not
  destroyed since;
* `Handles.table` : what the table looks like in every run, and what the calls do to it.
-/

namespace FwkMlib.Netx
open FwkMlib.Lib NetxPoll

namespace NetxPolls

variable {polls : NetxPolls} {i : Nat} {h poll : Int} {p q : NetxPoll}

/-! ## Counting the slots -/

/-- `netx__polls.list`, the null list being empty. -/
def slots (polls : NetxPolls) : List (Option NetxPoll) := polls.list.getD []

/-- `counts` is the number of the slots that are not `NULL`. -/
structure Counted (polls : NetxPolls) : Prop where
  counts : polls.counts = polls.slots.countP Option.isSome
  null : polls.list = none ↔ polls.maxCounts = 0

theorem slots_setSlot (polls : NetxPolls) (i : Nat) (v : Option NetxPoll) :
    (polls.setSlot i v).slots = polls.slots.set i v := by
  unfold slots setSlot
  cases polls.list <;> rfl

theorem slot_eq (hlt : i < polls.slots.length) : polls.slot i = polls.slots[i] := by
  unfold slots at hlt ⊢
  rw [slot, List.getElem?_eq_getElem hlt]
  rfl

theorem countP_setSlot (hlt : i < polls.slots.length) (v : Option NetxPoll) :
    (polls.setSlot i v).slots.countP Option.isSome + (polls.slot i).isSome.toNat =
      polls.slots.countP Option.isSome + v.isSome.toNat := by
  rw [slots_setSlot, List.countP_set hlt, slot_eq hlt]
  have hle : polls.slots[i].isSome.toNat ≤ polls.slots.countP Option.isSome := by
    cases hs : polls.slots[i].isSome with
    | false => exact Nat.zero_le _
    | true => exact List.countP_pos_iff.2 ⟨_, List.getElem_mem hlt, hs⟩
  cases hs : polls.slots[i].isSome <;> cases v <;>
    simp only [hs, Bool.toNat_true, Bool.toNat_false, Option.isSome_some, Option.isSome_none,
      Bool.false_eq_true, if_true, if_false] at hle ⊢ <;>
    omega

theorem list_setSlot (i : Nat) (v : Option NetxPoll) :
    (polls.setSlot i v).list = none ↔ polls.list = none := by
  unfold setSlot
  cases polls.list <;> simp

theorem Counted.replace (hc : Counted polls) (hs : polls.slot i = some p) (q : NetxPoll) :
    Counted (polls.setSlot i (some q)) := by
  refine ⟨?_, (list_setSlot i _).trans hc.null⟩
  have hcount := countP_setSlot (slot_some_lt hs) (some q)
  rw [hs] at hcount
  rw [Nat.add_right_cancel hcount]
  exact hc.counts

theorem Counted.grow (hc : Counted polls) : Counted polls.grow := by
  refine ⟨?_, ?_⟩
  · have hnew : (List.replicate 16 (none : Option NetxPoll)).countP Option.isSome = 0 := by
      decide
    show polls.counts = (polls.slots ++ List.replicate 16 none).countP Option.isSome
    rw [List.countP_append, hnew]
    exact hc.counts
  · unfold NetxPolls.grow
    simp

/-- **There is a free slot** wherever `netx_create` looks for one. -/
theorem Counted.exists_free (hc : Counted polls) (hinv : polls.Inv)
    (hlt : polls.counts < polls.maxCounts) : ∃ i < polls.maxCounts, polls.slot i = none := by
  by_contra hno
  have hall : ∀ v ∈ polls.slots, v.isSome = true := by
    intro v hv
    obtain ⟨i, hi, rfl⟩ := List.getElem_of_mem hv
    rw [← slot_eq hi, Option.isSome_iff_ne_none]
    intro hn
    exact hno ⟨i, hinv.length ▸ hi, hn⟩
  have hcount := List.countP_eq_length.2 hall
  have hlen : polls.slots.length = polls.maxCounts := hinv.length
  have := hc.counts
  omega

/-! ## Lookups -/

theorem lookup_setSlot_ne (hne : h ≠ (i : Int) + 1) (v : Option NetxPoll) :
    (polls.setSlot i v).lookup h = polls.lookup h := by
  show (if 0 < h ∧ h.toNat ≤ polls.maxCounts then (polls.setSlot i v).slot (h.toNat - 1)
    else none) = polls.lookup h
  unfold lookup
  split_ifs with hh
  · rw [slot_setSlot, if_neg (by omega)]
  · rfl

theorem isSome_lookup_setSlot (hl : polls.lookup poll = some p) (q : NetxPoll) (h : Int) :
    ((polls.setSlot (poll.toNat - 1) (some q)).lookup h).isSome = (polls.lookup h).isSome := by
  by_cases he : h = poll
  · rw [he, lookup_setSlot hl, hl]
    rfl
  · have hpos := (lookup_eq_some.1 hl).1.1
    rw [lookup_setSlot_ne (by omega)]

theorem lookup_grow (hinv : polls.Inv) (h : Int) : polls.grow.lookup h = polls.lookup h := by
  have hslot : polls.grow.slot (h.toNat - 1) = polls.slot (h.toNat - 1) := by
    unfold slot NetxPolls.grow
    simp only [Option.getD_some, List.getElem?_append]
    split_ifs with hlt
    · rfl
    · rw [List.getElem?_eq_none (Nat.le_of_not_lt hlt), List.getElem?_replicate]
      split_ifs <;> rfl
  show (if 0 < h ∧ h.toNat ≤ polls.maxCounts + 16 then polls.grow.slot (h.toNat - 1) else none) = _
  rw [hslot]
  unfold lookup
  by_cases hle : h.toNat ≤ polls.maxCounts
  · simp only [hle, Nat.le_add_right_of_le hle]
  · have hout : polls.slot (h.toNat - 1) = none := by
      by_contra hs
      obtain ⟨q, hq⟩ := Option.ne_none_iff_exists'.1 hs
      have := slot_some_lt hq
      rw [hinv.length] at this
      omega
    rw [hout]
    simp

/-! ## Destroying -/

/-- The table without one of its poll objects, before the array is released. -/
def cleared (polls : NetxPolls) (poll : Int) : NetxPolls :=
  { polls.setSlot (poll.toNat - 1) none with counts := polls.counts - 1 }

/-- The two ways out of `netx_destroy`: the sanity check of the poll object never fails. -/
theorem netxDestroy_cases (hinv : polls.Inv) {ret : Int} {polls' : NetxPolls}
    (hd : netxDestroy polls poll = (ret, polls')) :
    (polls.lookup poll = none ∧ ret = -1 ∧ polls' = polls) ∨
    ∃ p, polls.lookup poll = some p ∧ ret = 0 ∧
      (((polls.cleared poll).counts = 0 ∧ polls' = NetxPolls.init) ∨
        ((polls.cleared poll).counts ≠ 0 ∧ polls' = polls.cleared poll)) := by
  unfold netxDestroy at hd
  cases hl : polls.lookup poll with
  | none =>
    rw [hl] at hd
    cases hd
    exact .inl ⟨rfl, rfl, rfl⟩
  | some p =>
    obtain ⟨-, -, used, hp⟩ := hinv.live _ p (lookup_eq_some.1 hl).2
    have hsane : ¬ (netxPoolMagic ≠ p.magic ∨ p.maxCounts < p.counts) := by
      have hle := hp.length_le
      rw [← hp.counts] at hle
      exact not_or.2 ⟨not_not.2 hp.magic.symm, by omega⟩
    rw [hl] at hd
    simp only [if_neg hsane] at hd
    refine .inr ⟨p, rfl, ?_⟩
    split_ifs at hd with hzero
    · cases hd
      exact ⟨rfl, .inl ⟨hzero, rfl⟩⟩
    · cases hd
      exact ⟨rfl, .inr ⟨hzero, rfl⟩⟩

theorem lookup_cleared (hl : polls.lookup poll = some p) (h : Int) :
    (polls.cleared poll).lookup h = if h = poll then none else polls.lookup h := by
  obtain ⟨⟨hpos, hle⟩, hs⟩ := lookup_eq_some.1 hl
  show (polls.setSlot (poll.toNat - 1) none).lookup h = _
  split_ifs with he
  · subst he
    show (if 0 < h ∧ h.toNat ≤ polls.maxCounts then
      (polls.setSlot (h.toNat - 1) none).slot (h.toNat - 1) else none) = none
    rw [if_pos ⟨hpos, hle⟩, slot_setSlot, if_pos ⟨rfl, slot_some_lt hs⟩]
  · exact lookup_setSlot_ne (by omega) none

theorem Counted.cleared (hc : Counted polls) (hl : polls.lookup poll = some p) :
    Counted (polls.cleared poll) := by
  obtain ⟨-, hs⟩ := lookup_eq_some.1 hl
  refine ⟨?_, (list_setSlot _ _).trans hc.null⟩
  have hcount := countP_setSlot (slot_some_lt hs) none
  rw [hs] at hcount
  show polls.counts - 1 = (polls.setSlot (poll.toNat - 1) none).slots.countP Option.isSome
  have := hc.counts
  simp only [Option.isSome_some, Option.isSome_none, Bool.toNat_true, Bool.toNat_false] at hcount
  omega

theorem Counted.lookup_eq_none (hc : Counted polls) (h0 : polls.counts = 0) (h : Int) :
    polls.lookup h = none := by
  by_contra hne
  obtain ⟨q, hq⟩ := Option.ne_none_iff_exists'.1 hne
  have hs := (lookup_eq_some.1 hq).2
  have hlt : h.toNat - 1 < polls.slots.length := slot_some_lt hs
  have hzero := List.countP_eq_zero.1 (hc.counts.symm.trans h0)
  rw [slot_eq hlt] at hs
  exact hzero _ (List.getElem_mem hlt) (by rw [hs]; rfl)

/-- **`netx_destroy`** on a live handle removes its poll object and no other, also when the array
is released. -/
theorem lookup_destroy (hinv : polls.Inv) (hc : Counted polls) {ret : Int} {polls' : NetxPolls}
    (hd : netxDestroy polls poll = (ret, polls')) (h : Int) :
    polls'.lookup h = if h = poll then none else polls.lookup h := by
  rcases netxDestroy_cases hinv hd with ⟨hl, -, rfl⟩ | ⟨p, hl, -, ⟨h0, rfl⟩ | ⟨-, rfl⟩⟩
  · split_ifs with he
    · rw [he, hl]
    · rfl
  · rw [← lookup_cleared hl, (hc.cleared hl).lookup_eq_none h0]
    unfold lookup NetxPolls.init
    rw [if_neg (by dsimp only; omega)]
  · exact lookup_cleared hl h

theorem Counted.init : Counted NetxPolls.init := ⟨rfl, by simp [NetxPolls.init]⟩

theorem Counted.destroy (hc : Counted polls) (hinv : polls.Inv) {ret : Int} {polls' : NetxPolls}
    (hd : netxDestroy polls poll = (ret, polls')) : Counted polls' := by
  rcases netxDestroy_cases hinv hd with ⟨-, -, rfl⟩ | ⟨p, hl, -, ⟨-, rfl⟩ | ⟨-, rfl⟩⟩
  · exact hc
  · exact Counted.init
  · exact hc.cleared hl

/-! ## Creating -/

/-- The table after a possible reallocation has room, and the poll objects it had. -/
theorem room {t : NetxPolls} (hinv : polls.Inv) (hc : Counted polls)
    (ht : polls.counts < polls.maxCounts ∧ t = polls ∨
      polls.maxCounts ≤ polls.counts ∧ t = polls.grow) :
    t.Inv ∧ Counted t ∧ t.counts < t.maxCounts ∧ ∀ h, t.lookup h = polls.lookup h := by
  rcases ht with ⟨hlt, rfl⟩ | ⟨-, rfl⟩
  · exact ⟨hinv, hc, hlt, fun _ => rfl⟩
  · refine ⟨hinv.grow, hc.grow, ?_, lookup_grow hinv⟩
    have hle : polls.slots.countP Option.isSome ≤ polls.slots.length := List.countP_le_length
    have hlen : polls.slots.length = polls.maxCounts := hinv.length
    have := hc.counts
    show polls.counts < polls.maxCounts + 16
    omega

theorem Counted.fill (hc : Counted polls) (hinv : polls.Inv) (hi : i < polls.maxCounts)
    (hs : polls.slot i = none) (q : NetxPoll) :
    Counted { polls.setSlot i (some q) with counts := polls.counts + 1 } := by
  refine ⟨?_, (list_setSlot _ _).trans hc.null⟩
  have hlt : i < polls.slots.length := hinv.length.symm ▸ hi
  have hcount := countP_setSlot hlt (some q)
  rw [hs] at hcount
  show polls.counts + 1 = (polls.setSlot i (some q)).slots.countP Option.isSome
  have := hc.counts
  simp only [Option.isSome_some, Option.isSome_none, Bool.toNat_true, Bool.toNat_false] at hcount
  omega

theorem lookup_fill (hinv : polls.Inv) (hi : i < polls.maxCounts) (q : NetxPoll) (h : Int) :
    NetxPolls.lookup { polls.setSlot i (some q) with counts := polls.counts + 1 } h =
      if h = (i + 1 : Nat) then some q else polls.lookup h := by
  show (polls.setSlot i (some q)).lookup h = _
  split_ifs with he
  · have hslot : (polls.setSlot i (some q)).slot i = some q := by
      rw [slot_setSlot, if_pos ⟨rfl, hinv.length.symm ▸ hi⟩]
    subst he
    apply lookup_eq_some.2
    exact ⟨⟨by omega, hi⟩, hslot⟩
  · exact lookup_setSlot_ne (by omega) _

/-- **`netx_create`** finds a slot: it fails with the table's poll objects as they were, or returns
a handle that was free. -/
theorem lookup_netxCreate (hinv : polls.Inv) (hc : Counted polls) {maxCounts : Nat}
    {listOk pollOk : Bool} {ret : Int} {polls' : NetxPolls}
    (h : netxCreate polls maxCounts listOk pollOk = (ret, polls')) :
    Counted polls' ∧
      (((ret = -1 ∨ ret = -3 ∨ ret = -4) ∧ ∀ h, polls'.lookup h = polls.lookup h) ∨
        (0 < ret ∧ polls.lookup ret = none ∧ ∀ h, polls'.lookup h =
          if h = ret then some (initPoll (min maxCounts FD_SETSIZE)) else polls.lookup h)) := by
  rcases netxCreate_cases h with ⟨hret, rfl⟩ | ⟨t, ht, hcases⟩
  · exact ⟨hc, .inl ⟨by omega, fun _ => rfl⟩⟩
  obtain ⟨htinv, htc, hlt, hsame⟩ := room hinv hc ht
  rcases hcases with ⟨-, -, hfull⟩ | ⟨i, ⟨hi, hfree⟩, ⟨rfl, rfl⟩ | ⟨-, rfl, rfl⟩⟩
  · obtain ⟨i, hi, hfree⟩ := htc.exists_free htinv hlt
    exact absurd hfree (hfull i hi)
  · exact ⟨htc, .inl ⟨by omega, hsame⟩⟩
  · refine ⟨htc.fill htinv hi hfree _, .inr ⟨by omega, ?_, fun h => ?_⟩⟩
    · rw [← hsame]
      by_contra hne
      obtain ⟨q, hq⟩ := Option.ne_none_iff_exists'.1 hne
      have hs := (lookup_eq_some.1 hq).2
      rw [Int.toNat_natCast, Nat.add_sub_cancel, hfree] at hs
      cases hs
    · rw [lookup_fill htinv hi, hsame]

/-! ## Calls on the poll objects -/

theorem Counted.ctl (hc : Counted polls) {operation : Nat} {fd : Int} {event : Option NetxEvent}
    {ret : Int} {polls' : NetxPolls}
    (h : netxCtl polls poll operation fd event = some (ret, polls')) :
    Counted polls' ∧ ∀ h, (polls'.lookup h).isSome = (polls.lookup h).isSome := by
  unfold netxCtl at h
  cases hl : polls.lookup poll with
  | none =>
    rw [hl] at h
    cases h
    exact ⟨hc, fun _ => rfl⟩
  | some p =>
    rw [hl] at h
    simp only at h
    split_ifs at h
    · cases h
      exact ⟨hc, fun _ => rfl⟩
    · obtain ⟨⟨r, q⟩, -, h⟩ := Option.bind_eq_some_iff.1 h
      cases h
      exact ⟨hc.replace (lookup_eq_some.1 hl).2 q, isSome_lookup_setSlot hl q⟩

theorem Counted.wait (hc : Counted polls) {events : Bool} {max timeout : Nat} {select : Select}
    {ret : Int} {out : List (Int × NetxEvent)} {polls' : NetxPolls}
    (h : netxWait polls poll events max timeout select = some (ret, out, polls')) :
    Counted polls' ∧ ∀ h, (polls'.lookup h).isSome = (polls.lookup h).isSome := by
  unfold netxWait at h
  cases hl : polls.lookup poll with
  | none =>
    rw [hl] at h
    cases h
    exact ⟨hc, fun _ => rfl⟩
  | some p =>
    rw [hl] at h
    simp only at h
    split_ifs at h
    · cases h
      exact ⟨hc, fun _ => rfl⟩
    · cases h
      exact ⟨hc, fun _ => rfl⟩
    · obtain ⟨⟨r, o, q⟩, -, h⟩ := Option.bind_eq_some_iff.1 h
      cases h
      exact ⟨hc.replace (lookup_eq_some.1 hl).2 q, isSome_lookup_setSlot hl q⟩

end NetxPolls

/-! ## Runs -/

/-- The tables reached, each with the handles that were returned and not destroyed since. -/
inductive History : NetxPolls → Set Int → Prop
  | init : History NetxPolls.init ∅
  | create {polls polls' : NetxPolls} {live : Set Int} {maxCounts : Nat} {listOk pollOk : Bool}
      {ret : Int} (hr : History polls live)
      (hc : netxCreate polls maxCounts listOk pollOk = (ret, polls')) :
      History polls' (if 0 < ret then insert ret live else live)
  | destroy {polls polls' : NetxPolls} {live : Set Int} {poll ret : Int} (hr : History polls live)
      (hd : netxDestroy polls poll = (ret, polls')) :
      History polls' (if ret = 0 then live \ {poll} else live)
  | ctl {polls polls' : NetxPolls} {live : Set Int} {poll : Int} {operation : Nat} {fd : Int}
      {event : Option NetxEvent} {ret : Int} (hr : History polls live)
      (hc : netxCtl polls poll operation fd event = some (ret, polls')) : History polls' live
  | wait {polls polls' : NetxPolls} {live : Set Int} {poll : Int} {events : Bool}
      {max timeout : Nat} {select : Select} {ret : Int} {out : List (Int × NetxEvent)}
      (hr : History polls live)
      (hw : netxWait polls poll events max timeout select = some (ret, out, polls')) :
      History polls' live

variable {polls : NetxPolls} {live : Set Int}

theorem History.reachable (hr : History polls live) : Reachable polls := by
  induction hr with
  | init => exact .init
  | @create polls polls' live maxCounts listOk pollOk ret hr hc ih =>
    have h := ih.create maxCounts listOk pollOk
    rwa [hc] at h
  | @destroy polls polls' live poll ret hr hd ih =>
    have h := ih.destroy poll
    rwa [hd] at h
  | ctl hr hc ih => exact ih.ctl hc
  | wait hr hw ih => exact ih.wait hw

/-- The table counts its poll objects, and stands for the live handles. -/
structure TableOf (polls : NetxPolls) (live : Set Int) : Prop where
  counts : polls.counts = polls.slots.countP Option.isSome
  null : polls.list = none ↔ polls.maxCounts = 0
  live : ∀ h, h ∈ live ↔ (polls.lookup h).isSome

theorem TableOf.counted (ht : TableOf polls live) : polls.Counted := ⟨ht.counts, ht.null⟩

/-- What a call of `netx_create` does: a new handle, or an error that is not the inner one and the
same live polls; every other poll keeps its contents. -/
structure Created (polls polls' : NetxPolls) (live : Set Int) (maxCounts : Nat) (ret : Int) :
    Prop where
  noInnerError : ret ≠ -5
  sign : ret < 0 ∨ 0 < ret
  fresh : 0 < ret →
    ret ∉ live ∧ polls'.lookup ret = some (initPoll (min maxCounts FD_SETSIZE))
  kept : ∀ h ∈ live, polls'.lookup h = polls.lookup h
  failed : ret < 0 → ∀ h, polls'.lookup h = polls.lookup h

structure Destroyed (polls polls' : NetxPolls) (live : Set Int) (poll ret : Int) : Prop where
  done : poll ∈ live → ret = 0 ∧ polls'.lookup poll = none
  dead : poll ∉ live → ret = -1 ∧ polls' = polls
  kept : ∀ h, h ≠ poll → polls'.lookup h = polls.lookup h

theorem TableOf.created (ht : TableOf polls live) (hinv : polls.Inv) {maxCounts : Nat}
    {listOk pollOk : Bool} {ret : Int} {polls' : NetxPolls}
    (hc : netxCreate polls maxCounts listOk pollOk = (ret, polls')) :
    Created polls polls' live maxCounts ret ∧
      TableOf polls' (if 0 < ret then insert ret live else live) := by
  obtain ⟨hcount, ⟨hret, hsame⟩ | ⟨hpos, hfree, hnew⟩⟩ :=
    NetxPolls.lookup_netxCreate hinv ht.counted hc
  · refine ⟨⟨by omega, by omega, fun h => by omega, fun h _ => hsame h, fun _ => hsame⟩, ?_⟩
    rw [if_neg (by omega)]
    refine ⟨hcount.counts, hcount.null, fun h => ?_⟩
    rw [hsame]
    exact ht.live h
  · have hdead : ret ∉ live := fun hl => by
      rw [ht.live, hfree] at hl
      exact Bool.false_ne_true hl
    refine ⟨⟨by omega, .inr hpos, fun _ => ⟨hdead, ?_⟩, fun h hl => ?_, fun h => by omega⟩, ?_⟩
    · rw [hnew, if_pos rfl]
    · have hne : h ≠ ret := fun he => hdead (he ▸ hl)
      rw [hnew, if_neg hne]
    · rw [if_pos hpos]
      refine ⟨hcount.counts, hcount.null, fun h => ?_⟩
      rw [hnew, Set.mem_insert_iff]
      by_cases he : h = ret
      · simp [he]
      · simp [he, ht.live]

theorem TableOf.destroyed (ht : TableOf polls live) (hinv : polls.Inv) {poll ret : Int}
    {polls' : NetxPolls} (hd : netxDestroy polls poll = (ret, polls')) :
    Destroyed polls polls' live poll ret ∧
      TableOf polls' (if ret = 0 then live \ {poll} else live) := by
  have hlookup := NetxPolls.lookup_destroy hinv ht.counted hd
  have hcount := ht.counted.destroy hinv hd
  rcases NetxPolls.netxDestroy_cases hinv hd with ⟨hl, rfl, rfl⟩ | ⟨p, hl, rfl, -⟩
  · have hdead : poll ∉ live := fun hm => by
      rw [ht.live, hl] at hm
      exact Bool.false_ne_true hm
    refine ⟨⟨fun hm => absurd hm hdead, fun _ => ⟨rfl, rfl⟩, fun _ _ => rfl⟩, ?_⟩
    rw [if_neg (by decide)]
    exact ht
  · have hlive : poll ∈ live := (ht.live poll).2 (by rw [hl]; rfl)
    refine ⟨⟨fun _ => ⟨rfl, ?_⟩, fun hm => absurd hlive hm, fun h hne => ?_⟩, ?_⟩
    · rw [hlookup, if_pos rfl]
    · rw [hlookup, if_neg hne]
    · rw [if_pos rfl]
      refine ⟨hcount.counts, hcount.null, fun h => ?_⟩
      rw [hlookup, Set.mem_sdiff, Set.mem_singleton_iff, ht.live]
      by_cases he : h = poll
      · simp [he]
      · simp [he]

theorem History.tableOf (hr : History polls live) : TableOf polls live := by
  induction hr with
  | init => exact ⟨NetxPolls.Counted.init.counts, NetxPolls.Counted.init.null, fun h => by
      simp [NetxPolls.lookup, NetxPolls.slot, NetxPolls.init]⟩
  | create hr hc ih => exact (ih.created hr.reachable.inv hc).2
  | destroy hr hd ih => exact (ih.destroyed hr.reachable.inv hd).2
  | ctl hr hc ih =>
    obtain ⟨hcount, hsame⟩ := ih.counted.ctl hc
    exact ⟨hcount.counts, hcount.null, fun h => by rw [hsame]; exact ih.live h⟩
  | wait hr hw ih =>
    obtain ⟨hcount, hsame⟩ := ih.counted.wait hw
    exact ⟨hcount.counts, hcount.null, fun h => by rw [hsame]; exact ih.live h⟩

/-- **The handle table**, in every run: it stands for the live handles, and no call with a handle
that is not live does anything. -/
theorem History.table (hr : History polls live) :
    TableOf polls live ∧
    (∀ maxCounts listOk pollOk ret polls',
      netxCreate polls maxCounts listOk pollOk = (ret, polls') →
      Created polls polls' live maxCounts ret) ∧
    (∀ poll ret polls', netxDestroy polls poll = (ret, polls') →
      Destroyed polls polls' live poll ret) ∧
    ∀ poll, poll ∉ live → netxDestroy polls poll = (-1, polls) ∧
      (∀ operation fd event, netxCtl polls poll operation fd event = some (-1, polls)) ∧
      ∀ events max timeout select,
        netxWait polls poll events max timeout select = some (-1, [], polls) := by
  have ht := hr.tableOf
  have hinv := hr.reachable.inv
  refine ⟨ht, fun _ _ _ _ _ hc => (ht.created hinv hc).1, fun _ _ _ hd => (ht.destroyed hinv hd).1,
    fun poll hdead => ?_⟩
  have hnone : polls.lookup poll = none := by
    rw [ht.live, Bool.not_eq_true, Option.isSome_eq_false_iff, Option.isNone_iff_eq_none] at hdead
    exact hdead
  refine ⟨?_, fun _ _ _ => ?_, fun _ _ _ _ => ?_⟩
  · unfold netxDestroy
    rw [hnone]
  · unfold netxCtl
    rw [hnone]
  · unfold netxWait
    rw [hnone]

/-- The second of two polls outlives the first. -/
theorem History.table_two : ∃ polls polls', History polls {2} ∧
    netxDestroy polls 1 = (-1, polls) ∧ netxDestroy polls 2 = (0, polls') ∧
    polls'.lookup 2 = none := by
  obtain ⟨t₁, t₂, t₃, h₁, h₂, h₃⟩ : ∃ t₁ t₂ t₃, netxCreate NetxPolls.init 4 true true = (1, t₁) ∧
    netxCreate t₁ 4 true true = (2, t₂) ∧ netxDestroy t₂ 1 = (0, t₃) := ⟨_, _, _, rfl, rfl, rfl⟩
  have hrun := ((History.init.create h₁).create h₂).destroy h₃
  have hlive : insert 2 (insert 1 (∅ : Set Int)) \ {1} = {2} := by
    ext h
    simp only [Set.mem_sdiff, Set.mem_insert_iff, Set.mem_singleton_iff, Set.mem_empty_iff_false,
      or_false]
    omega
  rw [if_pos rfl, if_pos (by decide), if_pos (by decide), hlive] at hrun
  obtain ⟨-, -, hdestroy, hdead⟩ := History.table hrun
  obtain ⟨ret, t₄, h₄⟩ : ∃ ret t₄, netxDestroy t₃ 2 = (ret, t₄) := ⟨_, _, rfl⟩
  obtain ⟨rfl, hgone⟩ := (hdestroy 2 ret t₄ h₄).done rfl
  exact ⟨t₃, t₄, hrun, (hdead 1 (by decide)).1, h₄, hgone⟩

end FwkMlib.Netx
