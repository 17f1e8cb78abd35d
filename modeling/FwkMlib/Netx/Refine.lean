import FwkMlib.Netx.Inv
import FwkMlib.Lib.OrdMap

/-!
# The poll object refines an ordered map from fds to events

`FdMap.ctl` is what the three operations are for: updates of an ordered finite map of bounded size,
with the calls it refuses. `ctl_simulates` : one call on a poll object that represents a map.
-/

namespace FwkMlib.Netx
open FwkMlib.Lib

/-- The registrations of a poll object of capacity `cap`, in ring order. -/
abbrev FdMap (cap : Nat) := OrdMap Int NetxEvent cap

/-- The map after a call, `none` when the call is refused. -/
def FdMap.ctl {cap : Nat} (m : FdMap cap) (operation : Nat) (fd : Int) (event : Option NetxEvent) :
    Option (FdMap cap) :=
  if operation = netxCtlAdd then
    if 0 ≤ fd then event.bind (m.insert? fd) else none
  else if operation = netxCtlMod then event.bind (m.modify? fd)
  else if operation = netxCtlDel then m.erase? fd
  else none

namespace NetxPoll

/-- The poll object holds exactly the registrations of `m`. -/
def Represents (p : NetxPoll) {cap : Nat} (m : FdMap cap) : Prop :=
  ∃ used, PollInv p used ∧ p.maxCounts = cap ∧ p.entries used = m.entries

variable {p : NetxPoll} {cap : Nat} {m : FdMap cap} {used : List Nat}

theorem keys_eq (hm : p.entries used = m.entries) : m.keys = used.map fun i => (p.items i).fd := by
  rw [OrdMap.keys, ← hm, entries_fst]

/-- The search finds the item of a registered fd, or reaches the end of the chain of an absent one. -/
theorem search_of_inv (hi : PollInv p used) (fd : Int) :
    (∃ c₁ c₂ item l₁ l₂, used = l₁ ++ item :: l₂ ∧ (p.items item).fd = fd ∧
      Path p.hashNext (p.hashTable (p.bucketOf fd)) (c₁ ++ item :: c₂) ∧
      p.searchItem fd (p.maxCounts + 1) (.bucket (p.bucketOf fd)) =
        some (tailPt (.bucket (p.bucketOf fd)) c₁, some item)) ∨
    (∃ c, fd ∉ used.map (fun i => (p.items i).fd) ∧
      Path p.hashNext (p.hashTable (p.bucketOf fd)) c ∧ (∀ j ∈ c, j ∈ used) ∧
      p.searchItem fd (p.maxCounts + 1) (.bucket (p.bucketOf fd)) =
        some (tailPt (.bucket (p.bucketOf fd)) c, none)) := by
  obtain ⟨chain, hpath, hiff⟩ := hi.chain _ (bucketOf_lt hi fd)
  have hlen : chain.length ≤ used.length :=
    (hpath.nodup.subperm fun j hj => ((hiff j).1 hj).1).length_le
  have hload : Path p.hashNext (p.load (.bucket (p.bucketOf fd))) chain := hpath
  obtain ⟨r, hr, hend⟩ := searchItem_spec p fd hload
    (Nat.lt_succ_of_le (hlen.trans hi.length_le))
  cases hend with
  | found c₁ c₂ item hchain hitem =>
    subst hchain
    obtain ⟨l₁, l₂, hl⟩ := List.append_of_mem ((hiff item).1 (by simp)).1
    exact .inl ⟨c₁, c₂, item, l₁, l₂, hl, hitem, hpath, hr⟩
  | absent hall =>
    refine .inr ⟨chain, fun hm => ?_, hpath, fun j hj => ((hiff j).1 hj).1, hr⟩
    obtain ⟨j, hj, hjfd⟩ := List.mem_map.1 hm
    exact hall j ((hiff j).2 ⟨hj, by rw [hjfd]⟩) hjfd

/-! ## One call -/

/-- The code's answer to a call that the map answers with `m'`. -/
def Answers (p : NetxPoll) (m' : Option (FdMap cap)) (r : Int) (q : NetxPoll) : Prop :=
  match m' with
  | none => r < 0 ∧ q = p
  | some m' => r = 0 ∧ q.Represents m'

theorem mod_found (hi : PollInv p used) (hcap : p.maxCounts = cap) (hm : p.entries used = m.entries)
    {item : Nat} {fd : Int} (hitem : item ∈ used) (hfd : (p.items item).fd = fd)
    (event : NetxEvent) :
    ∃ m', m.modify? fd event = some m' ∧ (p.ctlMod item event).Represents m' := by
  have hkey : fd ∈ m.keys := by
    rw [keys_eq hm]
    exact List.mem_map.2 ⟨item, hitem, hfd⟩
  obtain ⟨m', hm'⟩ : ∃ m', m.modify? fd event = some m' := by
    unfold OrdMap.modify?
    rw [if_pos hkey]
    exact ⟨_, rfl⟩
  refine ⟨m', hm', used, ctlMod_inv hi item event, hcap, ?_⟩
  rw [(OrdMap.modify?_eq_some.1 hm').2, ← hm, entries, entries, List.map_map]
  refine List.map_congr_left fun j hj => ?_
  by_cases hji : j = item
  · subst hji
    simp [ctlMod, items_modifyItem, OrdMap.replace, hfd]
  · have hne : (p.items j).fd ≠ fd := fun h =>
      hji (List.inj_on_of_nodup_map hi.fdNodup hj hitem (h.trans hfd.symm))
    simp [ctlMod, items_modifyItem, OrdMap.replace, hji, hne]

theorem del_found {l₁ l₂ c₁ c₂ : List Nat} {item : Nat} {fd : Int}
    (hi : PollInv p (l₁ ++ item :: l₂)) (hcap : p.maxCounts = cap)
    (hm : p.entries (l₁ ++ item :: l₂) = m.entries) (hfd : (p.items item).fd = fd)
    (hp : Path p.hashNext (p.hashTable (p.bucketOf fd)) (c₁ ++ item :: c₂)) :
    ∃ m' q, m.erase? fd = some m' ∧ p.ctlDel (tailPt (.bucket (p.bucketOf fd)) c₁) item = some q ∧
      q.Represents m' := by
  have hmem : item ∈ l₁ ++ item :: l₂ := by simp
  obtain ⟨a, -, ha⟩ := hi.ring.exists_prev hmem
  obtain ⟨b, -, hb⟩ := hi.ring.exists_next hmem
  have hkey : fd ∈ m.keys := by
    rw [keys_eq hm]
    exact List.mem_map.2 ⟨item, hmem, hfd⟩
  obtain ⟨m', hm'⟩ : ∃ m', m.erase? fd = some m' := by
    unfold OrdMap.erase?
    rw [if_pos hkey]
    exact ⟨_, rfl⟩
  obtain ⟨q, hrun, hq⟩ := ctlDel_spec ha.2 hb.1
  refine ⟨m', q, hm', hrun, l₁ ++ l₂, hq.inv hi ha hb (by rw [hfd]) hp, hq.maxCounts.trans hcap, ?_⟩
  rw [(OrdMap.erase?_eq_some.1 hm').2, ← hm]
  -- the fd of `item` is the only one the filter drops
  have hkeep : ∀ j, j ∈ l₁ ++ l₂ → (p.items j).fd ≠ fd ∧ j ≠ item := by
    intro j hj
    have hnd := List.nodup_cons.1 (List.nodup_middle.1 hi.ring.nodup)
    have hne : j ≠ item := by rintro rfl; exact hnd.1 hj
    have hj' : j ∈ l₁ ++ item :: l₂ := by simp at hj ⊢; tauto
    exact ⟨fun h => hne (List.inj_on_of_nodup_map hi.fdNodup hj' hmem (h.trans hfd.symm)), hne⟩
  have hpart : ∀ l : List Nat, (∀ j ∈ l, j ∈ l₁ ++ l₂) →
      (p.entries l).filter (fun e => e.1 ≠ fd) = q.entries l := by
    intro l hl
    rw [List.filter_eq_self.2]
    · refine List.map_congr_left fun j hj => ?_
      rw [hq.fd j (hkeep j (hl j hj)).2, hq.event j (hkeep j (hl j hj)).2]
    · intro e he
      obtain ⟨j, hj, rfl⟩ := List.mem_map.1 he
      simpa using (hkeep j (hl j hj)).1
  have hsplit : p.entries (l₁ ++ item :: l₂) =
      p.entries l₁ ++ (fd, (p.items item).event) :: p.entries l₂ := by
    simp [entries, hfd]
  rw [hsplit, List.filter_append, List.filter_cons_of_neg (by simp),
    hpart l₁ fun j hj => List.mem_append_left _ hj,
    hpart l₂ fun j hj => List.mem_append_right _ hj]
  simp [entries]

theorem add_absent (hi : PollInv p used) (hcap : p.maxCounts = cap)
    (hm : p.entries used = m.entries) {fd : Int} (hfd : 0 ≤ fd) (event : NetxEvent) {c : List Nat}
    (habsent : fd ∉ used.map fun i => (p.items i).fd)
    (hp : Path p.hashNext (p.hashTable (p.bucketOf fd)) c) (hc : ∀ j ∈ c, j ∈ used) {item : Nat}
    (hfree : p.freeList = some item) :
    ∃ m' q, m.insert? fd event = some m' ∧
      p.ctlAdd (tailPt (.bucket (p.bucketOf fd)) c) item fd event = some q ∧ q.Represents m' := by
  obtain ⟨free, hpath, hperm⟩ := hi.free
  cases free with
  | nil => exact absurd (hfree.symm.trans hpath) (by simp)
  | cons i free =>
    obtain rfl : item = i := Option.some.inj (hfree.symm.trans hpath.1)
    have hdisj := List.disjoint_of_nodup_append (hperm.nodup_iff.2 List.nodup_range)
    have hnew : item ∉ used := fun h => hdisj h List.mem_cons_self
    have hlen := hperm.length_eq
    simp only [List.length_append, List.length_cons, List.length_range] at hlen
    have hroom : m.entries.length < cap := by
      rw [← hm, entries, List.length_map]
      omega
    have hpt : tailPt (.bucket (p.bucketOf fd)) c ≠ .hashNext item := fun h =>
      hnew (hc _ (tailPt_eq_hashNext h))
    obtain ⟨m', hm'⟩ : ∃ m', m.insert? fd event = some m' := by
      unfold OrdMap.insert?
      rw [dif_pos ⟨by rw [keys_eq hm]; exact habsent, hroom⟩]
      exact ⟨_, rfl⟩
    have hentries : ∀ {u z : Nat} {q : NetxPoll},
        AddSpec p (tailPt (.bucket (p.bucketOf fd)) c) item u z fd event q →
        q.entries (used ++ [item]) = m'.entries := by
      intro u z q hq
      rw [(OrdMap.insert?_eq_some.1 hm').2.2, ← hm, entries, entries, List.map_append]
      congr 1
      · refine List.map_congr_left fun j hj => ?_
        have hne : j ≠ item := by rintro rfl; exact hnew hj
        rw [hq.fd j hne, hq.event j hne]
      · simp [hq.fdItem, hq.eventItem]
    refine ⟨m', ?_⟩
    cases used with
    | nil =>
      obtain ⟨q, hrun, hq⟩ := @ctlAdd_spec p _ item item item fd event hpt
        (.inl ⟨hi.usedList, rfl, rfl⟩)
      exact ⟨q, hm', hrun, [item], hq.inv hi hfree rfl hp hfd habsent hnew hq.ring_empty hq.usedList,
        hq.maxCounts.trans hcap, hentries hq⟩
    | cons u l =>
      obtain ⟨z, hz, hzu⟩ := hi.ring.exists_prev List.mem_cons_self
      obtain ⟨q, hrun, hq⟩ := @ctlAdd_spec p _ item u z fd event hpt
        (.inr ⟨hi.usedList, hzu.2, fun h => hnew (h ▸ List.mem_cons_self), fun h => hnew (h ▸ hz)⟩)
      exact ⟨q, hm', hrun, u :: l ++ [item], hq.inv hi hfree rfl hp hfd habsent hnew
        (hq.ring hi.ring hzu hnew) hq.usedList, hq.maxCounts.trans hcap, hentries hq⟩

theorem modify?_absent (hm : p.entries used = m.entries) {fd : Int}
    (h : fd ∉ used.map fun i => (p.items i).fd) (event : NetxEvent) :
    m.modify? fd event = none := by
  unfold OrdMap.modify?
  rw [if_neg (by rw [keys_eq hm]; exact h)]

theorem erase?_absent (hm : p.entries used = m.entries) {fd : Int}
    (h : fd ∉ used.map fun i => (p.items i).fd) : m.erase? fd = none := by
  unfold OrdMap.erase?
  rw [if_neg (by rw [keys_eq hm]; exact h)]

theorem insert?_present (hm : p.entries used = m.entries) {fd : Int} {item : Nat}
    (hitem : item ∈ used) (hfd : (p.items item).fd = fd) (event : NetxEvent) :
    m.insert? fd event = none := by
  unfold OrdMap.insert?
  rw [dif_neg]
  rintro ⟨h, -⟩
  rw [keys_eq hm] at h
  exact h (List.mem_map.2 ⟨item, hitem, hfd⟩)

theorem insert?_full (hi : PollInv p used) (hcap : p.maxCounts = cap)
    (hm : p.entries used = m.entries) (hfree : p.freeList = none) (fd : Int) (event : NetxEvent) :
    m.insert? fd event = none := by
  obtain ⟨free, hpath, hperm⟩ := hi.free
  rw [hfree] at hpath
  cases free with
  | cons i free => exact absurd hpath.1 (by simp)
  | nil =>
    have hlen := hperm.length_eq
    simp only [List.append_nil, List.length_range] at hlen
    unfold OrdMap.insert?
    rw [dif_neg]
    rintro ⟨-, h⟩
    rw [← hm, entries, List.length_map] at h
    omega

/-- What the parameter check of `netx_ctl` leaves. -/
theorem del_or_event {operation : Nat} {event : Option NetxEvent}
    (h : ¬ (netxCtlDel ≠ operation ∧ event = none)) :
    operation = netxCtlDel ∨ ∃ ev, event = some ev := by
  by_cases hop : operation = netxCtlDel
  · exact .inl hop
  · exact .inr (Option.ne_none_iff_exists'.1 fun hn => h ⟨Ne.symm hop, hn⟩)

/-- Behind the parameter check, `netx_ctl` answers as the map does. -/
theorem ctl_simulates (h : p.Represents m) {operation : Nat} {fd : Int} {event : Option NetxEvent}
    (hfd : 0 ≤ fd) (hev : operation = netxCtlDel ∨ ∃ ev, event = some ev) :
    ∃ r q, p.ctl operation fd event = some (r, q) ∧ p.Answers (m.ctl operation fd event) r q := by
  obtain ⟨used, hi, hcap, hm⟩ := h
  have hrep : p.Represents m := ⟨used, hi, hcap, hm⟩
  unfold ctl FdMap.ctl
  rcases search_of_inv hi fd with ⟨c₁, c₂, item, l₁, l₂, rfl, hitem, hp, hs⟩ | ⟨c, habs, hp, hc, hs⟩
  · have hmem : item ∈ l₁ ++ item :: l₂ := by simp
    simp only [hs, Option.bind_eq_bind, Option.bind_some]
    by_cases hadd : operation = netxCtlAdd
    · obtain ⟨ev, rfl⟩ : ∃ ev, event = some ev := hev.resolve_left (by rw [hadd]; decide)
      subst hadd
      refine ⟨-4, p, rfl, ?_⟩
      rw [if_pos rfl, if_pos hfd, Option.bind_some, insert?_present hm hmem hitem]
      exact ⟨by decide, rfl⟩
    by_cases hmod : operation = netxCtlMod
    · obtain ⟨ev, rfl⟩ : ∃ ev, event = some ev := hev.resolve_left (by rw [hmod]; decide)
      subst hmod
      obtain ⟨m', hm', hq⟩ := mod_found hi hcap hm hmem hitem ev
      refine ⟨0, p.ctlMod item ev, rfl, ?_⟩
      rw [if_neg hadd, if_pos rfl, Option.bind_some, hm']
      exact ⟨rfl, hq⟩
    by_cases hdel : operation = netxCtlDel
    · subst hdel
      obtain ⟨m', q, hm', hrun, hq⟩ := del_found hi hcap hm hitem hp
      refine ⟨0, q, by rw [if_neg hmod, if_pos rfl, hrun]; rfl, ?_⟩
      rw [if_neg hadd, if_neg hmod, if_pos rfl, hm']
      exact ⟨rfl, hq⟩
    · refine ⟨-1, p, by rw [if_neg hmod, if_neg hdel, if_neg hadd], ?_⟩
      rw [if_neg hadd, if_neg hmod, if_neg hdel]
      exact ⟨by decide, rfl⟩
  · simp only [hs, Option.bind_eq_bind, Option.bind_some]
    by_cases hadd : operation = netxCtlAdd
    · obtain ⟨ev, rfl⟩ : ∃ ev, event = some ev := hev.resolve_left (by rw [hadd]; decide)
      subst hadd
      cases hfree : p.freeList with
      | none =>
        refine ⟨-5, p, rfl, ?_⟩
        rw [if_pos rfl, if_pos hfd, Option.bind_some, insert?_full hi hcap hm hfree]
        exact ⟨by decide, rfl⟩
      | some item =>
        obtain ⟨m', q, hm', hrun, hq⟩ := add_absent hi hcap hm hfd ev habs hp hc hfree
        refine ⟨0, q, ?_, ?_⟩
        · show (p.ctlAdd _ item fd ev).bind _ = _
          rw [hrun]
          rfl
        · rw [if_pos rfl, if_pos hfd, Option.bind_some, hm']
          exact ⟨rfl, hq⟩
    by_cases hmod : operation = netxCtlMod
    · obtain ⟨ev, rfl⟩ : ∃ ev, event = some ev := hev.resolve_left (by rw [hmod]; decide)
      subst hmod
      refine ⟨-2, p, rfl, ?_⟩
      rw [if_neg hadd, if_pos rfl, Option.bind_some, modify?_absent hm habs]
      exact ⟨by decide, rfl⟩
    by_cases hdel : operation = netxCtlDel
    · subst hdel
      refine ⟨-3, p, rfl, ?_⟩
      rw [if_neg hadd, if_neg hmod, if_pos rfl, erase?_absent hm habs]
      exact ⟨by decide, rfl⟩
    · refine ⟨-1, p, by rw [if_neg hmod, if_neg hdel, if_neg hadd], ?_⟩
      rw [if_neg hadd, if_neg hmod, if_neg hdel]
      exact ⟨by decide, rfl⟩

end NetxPoll

end FwkMlib.Netx
