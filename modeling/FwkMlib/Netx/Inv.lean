import FwkMlib.Netx.CtlSpec
import FwkMlib.Lib.Ring

/-!
# The invariant of the poll object

`PollInv p used` : the used ring holds the items `used` from `used_list` on, every used item is in
the hash chain of its fd and in no other, the free list ends and holds the remaining items of the
pool, and no two used items share an fd. `netx_create` establishes it with no used item
(`initPoll_inv`); unlinking and linking an item keep it (`DelSpec.inv`, `AddSpec.inv`).
-/

namespace FwkMlib.Netx
open FwkMlib.Lib

namespace NetxPoll

/-- `b` follows `a` in the used ring. -/
def Linked (p : NetxPoll) (a b : Nat) : Prop :=
  (p.items a).next = some b ∧ (p.items b).prev = some a

/-- The links and counters of the poll object agree with the ring order `used`. -/
structure PollInv (p : NetxPoll) (used : List Nat) : Prop where
  magic : p.magic = netxPoolMagic
  hashSize : p.hashSize = netxPollHashSize p.maxCounts
  usedList : p.usedList = used.head?
  ring : Ring p.Linked used
  counts : p.counts = used.length
  free : ∃ free, Path p.hashNext p.freeList free ∧ (used ++ free).Perm (List.range p.maxCounts)
  chain : ∀ b < p.hashSize, ∃ chain, Path p.hashNext (p.hashTable b) chain ∧
    ∀ i, i ∈ chain ↔ i ∈ used ∧ p.bucketOf (p.items i).fd = b
  fdNodup : (used.map fun i => (p.items i).fd).Nodup
  fdNonneg : ∀ i ∈ used, 0 ≤ (p.items i).fd

def entries (p : NetxPoll) (used : List Nat) : List (Int × NetxEvent) :=
  used.map fun i => ((p.items i).fd, (p.items i).event)

theorem entries_fst (p : NetxPoll) (used : List Nat) :
    (p.entries used).map Prod.fst = used.map fun i => (p.items i).fd := by
  simp [entries]

theorem bucketOf_lt {p : NetxPoll} {used : List Nat} (h : PollInv p used) (fd : Int) :
    p.bucketOf fd < p.hashSize :=
  Nat.mod_lt _ (h.hashSize ▸ netxPollHashSize_pos _)

theorem PollInv.length_le {p : NetxPoll} {used : List Nat} (h : PollInv p used) :
    used.length ≤ p.maxCounts := by
  obtain ⟨free, -, hperm⟩ := h.free
  have := hperm.length_eq
  simp at this
  omega

theorem PollInv.unique {p : NetxPoll} {used used' : List Nat} (h : PollInv p used)
    (h' : PollInv p used') : used = used' := by
  have hlen := h.counts.symm.trans h'.counts
  have hhead := h.usedList.symm.trans h'.usedList
  cases used with
  | nil => exact (List.length_eq_zero_iff.1 hlen.symm).symm
  | cons u l =>
    cases used' with
    | nil => cases hlen
    | cons u' l' =>
      obtain rfl : u = u' := Option.some.inj hhead
      congr 1
      refine h.ring.unique (fun a b b' hb hb' => ?_) h'.ring (Nat.succ.inj hlen)
      exact Option.some.inj (hb.1.symm.trans hb'.1)

/-! ## A fresh poll object -/

theorem chained_items (n j : Nat) :
    ((List.range n).foldl
      (fun items i => Function.update items i { items i with hashNext := some (i + 1) })
      (fun _ => NetxItem.zero)) j =
    if j < n then { NetxItem.zero with hashNext := some (j + 1) } else NetxItem.zero := by
  induction n with
  | zero => rfl
  | succ n ih =>
    rw [List.range_succ, List.foldl_append, List.foldl_cons, List.foldl_nil,
      Function.update_apply]
    by_cases hj : j = n
    · subst hj
      simp [ih]
    · rw [if_neg hj, ih]
      have : j < n + 1 ↔ j < n := by omega
      simp [this]

theorem hashNext_initPoll {n j : Nat} (hj : j < n) :
    (initPoll n).hashNext j = if j + 1 < n then some (j + 1) else none := by
  simp only [hashNext, initPoll, Function.update_apply, chained_items]
  by_cases h : j = n - 1
  · rw [if_pos h, if_neg (show ¬ j + 1 < n by omega)]
  · rw [if_neg h, if_pos hj, if_pos (show j + 1 < n by omega)]

theorem path_initPoll (n : Nat) : ∀ k i, i + (k + 1) = n →
    Path (initPoll n).hashNext (some i) (List.range' i (k + 1)) := by
  intro k
  induction k with
  | zero =>
    intro i hi
    refine ⟨rfl, ?_⟩
    rw [hashNext_initPoll (by omega), if_neg (by omega)]
    rfl
  | succ k ih =>
    intro i hi
    refine ⟨rfl, ?_⟩
    rw [hashNext_initPoll (by omega), if_pos (by omega)]
    exact ih (i + 1) (by omega)

theorem initPoll_inv {n : Nat} (hn : 1 ≤ n) : PollInv (initPoll n) [] where
  magic := rfl
  hashSize := rfl
  usedList := rfl
  ring := Ring.nil
  counts := rfl
  free := by
    obtain ⟨k, rfl⟩ := Nat.exists_eq_add_of_le' hn
    refine ⟨List.range' 0 (k + 1), path_initPoll (k + 1) k 0 (by omega), ?_⟩
    simp [List.range_eq_range', initPoll]
  chain := fun b _ => ⟨[], rfl, by simp⟩
  fdNodup := List.nodup_nil
  fdNonneg := by simp

/-! ## Unlinking an item -/

/-- The link reached after walking `c` is the one the walk ends in. -/
theorem load_tailPt {p : NetxPoll} {b : Nat} {c : List Nat} {q : Option Nat}
    (h : Seg p.hashNext (p.hashTable b) c q) : p.load (tailPt (.bucket b) c) = q := by
  rcases List.eq_nil_or_concat c with rfl | ⟨l, z, rfl⟩
  · exact h
  · rw [List.concat_eq_append] at h ⊢
    have ht : tailPt (.bucket b) (l ++ [z]) = .hashNext z := by simp [tailPt]
    rw [ht]
    exact h.split.2

variable {p q : NetxPoll} {l₁ l₂ c₁ c₂ used : List Nat} {savePt : ItemPt} {item a b u z : Nat}
  {fd : Int} {event : NetxEvent}

theorem DelSpec.bucketOf (h : DelSpec p savePt item a b q) (fd : Int) :
    q.bucketOf fd = p.bucketOf fd := by
  rw [NetxPoll.bucketOf, NetxPoll.bucketOf, h.hashSize]

theorem DelSpec.hashNext_eq {c j : Nat} (h : DelSpec p (tailPt (.bucket c) c₁) item a b q)
    (hj : j ≠ item) (hc : j ∉ c₁) : q.hashNext j = p.hashNext j := by
  rw [h.hashNext, if_neg hj, if_neg fun ht => hc (tailPt_eq_hashNext ht)]

theorem DelSpec.ring (h : DelSpec p savePt item a b q) (hr : Ring p.Linked (l₁ ++ item :: l₂))
    (ha : p.Linked a item) (hb : p.Linked item b) : Ring q.Linked (l₁ ++ l₂) := by
  have hne : ∀ {v}, v ∈ l₁ ++ l₂ → v ≠ item := by
    rintro v hv rfl
    have := (List.nodup_middle.1 hr.nodup)
    exact (List.nodup_cons.1 this).1 hv
  refine hr.remove (fun v hv w hw hvw => ⟨?_, ?_⟩) fun v hv w hw hvi hiw => ⟨?_, ?_⟩
  · rw [h.next v (hne hv), if_neg, hvw.1]
    rintro rfl
    exact hne hw (Option.some.inj (hvw.1.symm.trans ha.1))
  · rw [h.prev w (hne hw), if_neg, hvw.2]
    rintro rfl
    exact hne hv (Option.some.inj (hvw.2.symm.trans hb.2))
  · obtain rfl : v = a := Option.some.inj (hvi.2.symm.trans ha.2)
    obtain rfl : w = b := Option.some.inj (hiw.1.symm.trans hb.1)
    rw [h.next v (hne hv), if_pos rfl]
  · obtain rfl : v = a := Option.some.inj (hvi.2.symm.trans ha.2)
    obtain rfl : w = b := Option.some.inj (hiw.1.symm.trans hb.1)
    rw [h.prev w (hne hw), if_pos rfl]

theorem DelSpec.head (h : DelSpec p savePt item a b q) (hr : Ring p.Linked (l₁ ++ item :: l₂))
    (ha : p.Linked a item) (hb : p.Linked item b)
    (hu : p.usedList = (l₁ ++ item :: l₂).head?) : q.usedList = (l₁ ++ l₂).head? := by
  rw [h.usedList, hu]
  cases l₁ with
  | cons c l =>
    have hc : item ≠ c := by
      rintro rfl
      exact absurd hr.nodup (by simp)
    simp [hc]
  | nil =>
    cases l₂ with
    | nil =>
      have hself : p.Linked item item := hr.rel_self
      obtain rfl : item = a := Option.some.inj (hself.2.symm.trans ha.2)
      simp
    | cons c l =>
      have hic : p.Linked item c := hr.rel_head
      obtain rfl : c = b := Option.some.inj (hic.1.symm.trans hb.1)
      have hne : item ≠ a := by
        rintro rfl
        obtain rfl : item = c := Option.some.inj (ha.1.symm.trans hic.1)
        exact absurd hr.nodup (by simp)
      simp [hne]

/-- Through the link saved by the search, deleting splices the item out of its chain. -/
theorem DelSpec.path {c : Nat} (h : DelSpec p (tailPt (.bucket c) c₁) item a b q)
    (hp : Path p.hashNext (p.hashTable c) (c₁ ++ item :: c₂)) :
    Path q.hashNext (q.hashTable c) (c₁ ++ c₂) := by
  have hnd := hp.nodup
  have hnd' := List.nodup_cons.1 (List.nodup_middle.1 hnd)
  have hi₁ : ∀ {j}, j ∈ c₁ → j ≠ item := by
    rintro j hj rfl; exact hnd'.1 (List.mem_append_left _ hj)
  have hi₂ : ∀ {j}, j ∈ c₂ → j ≠ item := by
    rintro j hj rfl; exact hnd'.1 (List.mem_append_right _ hj)
  obtain ⟨hseg₁, hseg₂⟩ := Seg.split hp
  have hstore : Seg (p.store (tailPt (.bucket c) c₁) (p.hashNext item)).hashNext
      ((p.store (tailPt (.bucket c) c₁) (p.hashNext item)).hashTable c) c₁ (p.hashNext item) :=
    seg_store hseg₁ (List.nodup_append.1 hnd).1
  have hfirst : Seg q.hashNext (q.hashTable c) c₁ (p.hashNext item) := by
    rw [h.hashTable, ← hashTable_store]
    refine hstore.congr fun j hj => ?_
    rw [h.hashNext, if_neg (hi₁ hj)]
    simp [NetxPoll.hashNext, items_store]
  refine hfirst.append (hseg₂.congr fun j hj => ?_)
  exact h.hashNext_eq (hi₂ hj) fun hj₁ => (List.disjoint_of_nodup_append hnd'.2) hj₁ hj

theorem PollInv.mem_chain {c : Nat} {chain : List Nat} (hi : PollInv p used) (hc : c < p.hashSize)
    (hp : Path p.hashNext (p.hashTable c) chain) (j : Nat) :
    j ∈ chain ↔ j ∈ used ∧ p.bucketOf (p.items j).fd = c := by
  obtain ⟨chain', hpath, hiff⟩ := hi.chain c hc
  rw [hp.unique hpath]
  exact hiff j

theorem mem_without {l₁ l₂ : List Nat} {item : Nat} (hn : (l₁ ++ item :: l₂).Nodup) {j : Nat} :
    j ∈ l₁ ++ l₂ ↔ j ∈ l₁ ++ item :: l₂ ∧ j ≠ item := by
  have hnd := List.nodup_cons.1 (List.nodup_middle.1 hn)
  have hmid : (l₁ ++ item :: l₂).Perm (item :: (l₁ ++ l₂)) := List.perm_middle
  rw [hmid.mem_iff, List.mem_cons]
  constructor
  · intro hj
    exact ⟨.inr hj, fun he => hnd.1 (he ▸ hj)⟩
  · rintro ⟨hj, hne⟩
    exact hj.resolve_left hne

theorem DelSpec.chain {c c' : Nat} (h : DelSpec p (tailPt (.bucket c) c₁) item a b q)
    (hi : PollInv p (l₁ ++ item :: l₂)) (hc : c = p.bucketOf (p.items item).fd)
    (hp : Path p.hashNext (p.hashTable c) (c₁ ++ item :: c₂)) (hc' : c' < p.hashSize) :
    ∃ chain, Path q.hashNext (q.hashTable c') chain ∧
      ∀ j, j ∈ chain ↔ j ∈ l₁ ++ l₂ ∧ q.bucketOf (q.items j).fd = c' := by
  have hchain := hi.mem_chain (hc ▸ bucketOf_lt hi _) hp
  have hbk : ∀ {j}, j ≠ item → q.bucketOf (q.items j).fd = p.bucketOf (p.items j).fd := fun hj => by
    rw [h.bucketOf, h.fd _ hj]
  by_cases hcc : c' = c
  · subst hcc
    refine ⟨c₁ ++ c₂, h.path hp, fun j => ?_⟩
    rw [mem_without hp.nodup, mem_without hi.ring.nodup, hchain]
    constructor
    · rintro ⟨⟨hu, hb⟩, hne⟩
      exact ⟨⟨hu, hne⟩, (hbk hne).trans hb⟩
    · rintro ⟨⟨hu, hne⟩, hb⟩
      exact ⟨⟨hu, (hbk hne).symm.trans hb⟩, hne⟩
  · obtain ⟨chain, hpath, hiff⟩ := hi.chain c' hc'
    have hne : ∀ {j}, j ∈ chain → j ≠ item := by
      rintro j hj rfl
      exact hcc (((hiff j).1 hj).2.symm.trans hc.symm)
    refine ⟨chain, ?_, fun j => ?_⟩
    · rw [h.hashTable, if_neg fun ht => hcc (tailPt_eq_bucket ht)]
      refine hpath.congr fun j hj => h.hashNext_eq (hne hj) fun hj₁ => ?_
      exact hcc (((hiff j).1 hj).2.symm.trans ((hchain j).1 (List.mem_append_left _ hj₁)).2)
    · rw [hiff j, mem_without hi.ring.nodup]
      constructor
      · rintro ⟨hu, hb⟩
        have hj := hne ((hiff j).2 ⟨hu, hb⟩)
        exact ⟨⟨hu, hj⟩, (hbk hj).trans hb⟩
      · rintro ⟨⟨hu, hj⟩, hb⟩
        exact ⟨hu, (hbk hj).symm.trans hb⟩

theorem DelSpec.inv {c : Nat} (h : DelSpec p (tailPt (.bucket c) c₁) item a b q)
    (hi : PollInv p (l₁ ++ item :: l₂)) (ha : p.Linked a item) (hb : p.Linked item b)
    (hc : c = p.bucketOf (p.items item).fd)
    (hp : Path p.hashNext (p.hashTable c) (c₁ ++ item :: c₂)) : PollInv q (l₁ ++ l₂) := by
  have hmem : ∀ {j}, j ∈ l₁ ++ l₂ ↔ j ∈ l₁ ++ item :: l₂ ∧ j ≠ item :=
    mem_without hi.ring.nodup
  have hfd : ∀ {j}, j ∈ l₁ ++ l₂ → (q.items j).fd = (p.items j).fd := fun hj =>
    h.fd _ (hmem.1 hj).2
  have hchain := hi.mem_chain (hc ▸ bucketOf_lt hi _) hp
  refine ⟨h.magic.trans hi.magic, by rw [h.hashSize, h.maxCounts]; exact hi.hashSize,
    h.head hi.ring ha hb hi.usedList, h.ring hi.ring ha hb, ?_, ?_, ?_, ?_, ?_⟩
  · rw [h.counts, hi.counts]
    simp
  · obtain ⟨free, hfree, hperm⟩ := hi.free
    refine ⟨item :: free, ⟨h.freeList, ?_⟩, ?_⟩
    · have hdisj := List.disjoint_of_nodup_append (hperm.nodup_iff.2 List.nodup_range)
      rw [h.hashNext, if_pos rfl]
      refine hfree.congr fun j hj => h.hashNext_eq ?_ fun hj₁ => ?_
      · rintro rfl
        exact hdisj (by simp) hj
      · exact hdisj ((hchain j).1 (List.mem_append_left _ hj₁)).1 hj
    · rw [h.maxCounts]
      have hmid : (l₁ ++ item :: (l₂ ++ free)).Perm (item :: (l₁ ++ (l₂ ++ free))) :=
        List.perm_middle
      refine List.Perm.trans (List.perm_middle.trans ?_) hperm
      simpa using hmid.symm
  · intro c' hc'
    rw [h.hashSize] at hc'
    exact h.chain hi hc hp hc'
  · rw [List.map_congr_left fun j hj => hfd hj]
    exact hi.fdNodup.sublist (((List.sublist_cons_self item l₂).append_left l₁).map _)
  · intro j hj
    rw [hfd hj]
    exact hi.fdNonneg j (hmem.1 hj).1

/-! ## Linking an item -/

theorem AddSpec.bucketOf (h : AddSpec p savePt item u z fd event q) (fd' : Int) :
    q.bucketOf fd' = p.bucketOf fd' := by
  rw [NetxPoll.bucketOf, NetxPoll.bucketOf, h.hashSize]

theorem AddSpec.ring_empty (h : AddSpec p savePt item item item fd event q) :
    Ring q.Linked [item] := Ring.singleton ⟨h.nextItem, h.prevItem⟩

theorem AddSpec.ring (h : AddSpec p savePt item u z fd event q)
    (hr : Ring p.Linked (u :: used)) (hz : p.Linked z u) (hnew : item ∉ u :: used) :
    Ring q.Linked (u :: used ++ [item]) := by
  have hne : ∀ {v}, v ∈ u :: used → v ≠ item := by
    rintro v hv rfl; exact hnew hv
  refine hr.snoc hnew (fun v hv w hw hvw => ⟨?_, ?_⟩) (fun v hv hvu => ⟨?_, ?_⟩) ⟨h.nextItem, ?_⟩
  · rw [h.next v (hne hv), if_neg, hvw.1]
    rintro rfl
    obtain rfl : w = u := Option.some.inj (hvw.1.symm.trans hz.1)
    exact (List.nodup_cons.1 hr.nodup).1 hw
  · rw [h.prev w (hne (List.mem_cons_of_mem u hw)), if_neg, hvw.2]
    rintro rfl
    exact (List.nodup_cons.1 hr.nodup).1 hw
  · obtain rfl : v = z := Option.some.inj (hvu.2.symm.trans hz.2)
    rw [h.next v (hne hv), if_pos rfl]
  · obtain rfl : v = z := Option.some.inj (hvu.2.symm.trans hz.2)
    exact h.prevItem
  · rw [h.prev u (hne List.mem_cons_self), if_pos rfl]

/-- Through the link saved by a failed search, adding appends the item to the chain. -/
theorem AddSpec.path {c : Nat} (h : AddSpec p (tailPt (.bucket c) c₁) item u z fd event q)
    (hp : Path p.hashNext (p.hashTable c) c₁) (hnew : item ∉ c₁) :
    Path q.hashNext (q.hashTable c) (c₁ ++ [item]) := by
  have hstore : Seg (p.store (tailPt (.bucket c) c₁) (some item)).hashNext
      ((p.store (tailPt (.bucket c) c₁) (some item)).hashTable c) c₁ (some item) :=
    seg_store hp hp.nodup
  have hfirst : Seg q.hashNext (q.hashTable c) c₁ (some item) := by
    rw [h.hashTable, ← hashTable_store]
    refine hstore.congr fun j hj => ?_
    have hne : j ≠ item := by rintro rfl; exact hnew hj
    rw [h.hashNext j hne]
    simp [NetxPoll.hashNext, items_store]
  refine hfirst.append ⟨rfl, ?_⟩
  rw [seg_nil, h.hashNextItem]
  exact load_tailPt hp

theorem AddSpec.hashNext_eq {c j : Nat}
    (h : AddSpec p (tailPt (.bucket c) c₁) item u z fd event q) (hj : j ≠ item) (hc : j ∉ c₁) :
    q.hashNext j = p.hashNext j := by
  rw [h.hashNext j hj, if_neg fun ht => hc (tailPt_eq_hashNext ht)]

theorem AddSpec.chain {c c' : Nat} (h : AddSpec p (tailPt (.bucket c) c₁) item u z fd event q)
    (hi : PollInv p used) (hc : c = p.bucketOf fd) (hp : Path p.hashNext (p.hashTable c) c₁)
    (hnew : item ∉ used) (hc' : c' < p.hashSize) :
    ∃ chain, Path q.hashNext (q.hashTable c') chain ∧
      ∀ j, j ∈ chain ↔ j ∈ used ++ [item] ∧ q.bucketOf (q.items j).fd = c' := by
  have hne : ∀ {j}, j ∈ used → j ≠ item := by
    rintro j hj rfl
    exact hnew hj
  have hchain := hi.mem_chain (hc ▸ bucketOf_lt hi fd) hp
  have hbk : ∀ {j}, j ∈ used → q.bucketOf (q.items j).fd = p.bucketOf (p.items j).fd := fun hj => by
    rw [h.bucketOf, h.fd _ (hne hj)]
  have hbk' : q.bucketOf (q.items item).fd = c := by rw [h.bucketOf, h.fdItem, hc]
  by_cases hcc : c' = c
  · subst hcc
    refine ⟨c₁ ++ [item], h.path hp fun hm => hnew ((hchain item).1 hm).1, fun j => ?_⟩
    rw [List.mem_append, List.mem_append, List.mem_singleton, hchain]
    constructor
    · rintro (⟨hj, hb⟩ | rfl)
      · exact ⟨.inl hj, by rw [hbk hj]; exact hb⟩
      · exact ⟨.inr rfl, hbk'⟩
    · rintro ⟨hj | rfl, hb⟩
      · exact .inl ⟨hj, by rw [← hbk hj]; exact hb⟩
      · exact .inr rfl
  · obtain ⟨chain, hpath, hiff⟩ := hi.chain c' hc'
    refine ⟨chain, ?_, fun j => ?_⟩
    · rw [h.hashTable, if_neg fun ht => hcc (tailPt_eq_bucket ht)]
      refine hpath.congr fun j hj => h.hashNext_eq (hne ((hiff j).1 hj).1) fun hj₁ => ?_
      exact hcc (((hiff j).1 hj).2.symm.trans ((hchain j).1 hj₁).2)
    · rw [hiff, List.mem_append, List.mem_singleton]
      constructor
      · rintro ⟨hj, hb⟩
        exact ⟨.inl hj, by rw [hbk hj]; exact hb⟩
      · rintro ⟨hj | rfl, hb⟩
        · exact ⟨hj, by rw [← hbk hj]; exact hb⟩
        · exact absurd (hb.symm.trans hbk') hcc

theorem AddSpec.inv {c : Nat} (h : AddSpec p (tailPt (.bucket c) c₁) item u z fd event q)
    (hi : PollInv p used) (hfree : p.freeList = some item) (hc : c = p.bucketOf fd)
    (hp : Path p.hashNext (p.hashTable c) c₁) (hfd : 0 ≤ fd)
    (habsent : fd ∉ used.map fun i => (p.items i).fd) (hnew : item ∉ used)
    (hring : Ring q.Linked (used ++ [item])) (hhead : q.usedList = (used ++ [item]).head?) :
    PollInv q (used ++ [item]) := by
  have hne : ∀ {j}, j ∈ used → j ≠ item := by
    rintro j hj rfl; exact hnew hj
  have hchain := hi.mem_chain (hc ▸ bucketOf_lt hi fd) hp
  refine ⟨h.magic.trans hi.magic, by rw [h.hashSize, h.maxCounts]; exact hi.hashSize, hhead, hring,
    ?_, ?_, ?_, ?_, ?_⟩
  · rw [h.counts, hi.counts]
    simp
  · obtain ⟨free, hpath, hperm⟩ := hi.free
    cases free with
    | nil => exact absurd (hfree.symm.trans hpath) (by simp)
    | cons i free =>
      obtain ⟨hi', hpath⟩ := hpath
      obtain rfl : item = i := Option.some.inj (hfree.symm.trans hi')
      have hnd := hperm.nodup_iff.2 List.nodup_range
      have hdisj := List.disjoint_of_nodup_append hnd
      have hnf := List.nodup_cons.1 (List.nodup_append.1 hnd).2.1
      refine ⟨free, ?_, by rw [h.maxCounts]; simpa using hperm⟩
      rw [h.freeList]
      refine hpath.congr fun j hj => h.hashNext_eq ?_ fun hj₁ => ?_
      · rintro rfl
        exact hnf.1 hj
      · exact hdisj ((hchain j).1 hj₁).1 (List.mem_cons_of_mem _ hj)
  · intro c' hc'
    rw [h.hashSize] at hc'
    exact h.chain hi hc hp hnew hc'
  · rw [List.map_append, List.map_congr_left fun j hj => h.fd j (hne hj)]
    refine List.nodup_append_comm.1 (List.nodup_cons.2 ⟨?_, hi.fdNodup⟩)
    show (q.items item).fd ∉ used.map fun j => (p.items j).fd
    rw [h.fdItem]
    exact habsent
  · intro j hj
    rcases List.mem_append.1 hj with hj | hj
    · rw [h.fd j (hne hj)]
      exact hi.fdNonneg j hj
    · obtain rfl := List.mem_singleton.1 hj
      rw [h.fdItem]
      exact hfd

/-! ## Replacing an event -/

theorem ctlMod_inv (hi : PollInv p used) (item : Nat) (event : NetxEvent) :
    PollInv (p.ctlMod item event) used := by
  have hfields : ∀ j, ((p.ctlMod item event).items j).fd = (p.items j).fd ∧
      (p.ctlMod item event).hashNext j = p.hashNext j ∧
      ((p.ctlMod item event).items j).next = (p.items j).next ∧
      ((p.ctlMod item event).items j).prev = (p.items j).prev := by
    intro j
    simp only [ctlMod, NetxPoll.hashNext, items_modifyItem]
    split_ifs with hj
    · subst hj; simp
    · simp
  refine ⟨hi.magic, hi.hashSize, hi.usedList, ?_, hi.counts, ?_, ?_, ?_, ?_⟩
  · refine hi.ring.imp fun v _ w _ hvw => ⟨?_, ?_⟩
    · rw [(hfields v).2.2.1]; exact hvw.1
    · rw [(hfields w).2.2.2]; exact hvw.2
  · obtain ⟨free, hpath, hperm⟩ := hi.free
    exact ⟨free, hpath.congr fun j _ => (hfields j).2.1, hperm⟩
  · intro b hb
    obtain ⟨chain, hpath, hiff⟩ := hi.chain b hb
    refine ⟨chain, hpath.congr fun j _ => (hfields j).2.1, fun j => ?_⟩
    rw [hiff, (hfields j).1]
    rfl
  · simp only [(hfields _).1]
    exact hi.fdNodup
  · intro j hj
    rw [(hfields j).1]
    exact hi.fdNonneg j hj

end NetxPoll

end FwkMlib.Netx
