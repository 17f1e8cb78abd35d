import FwkMlib.Netx.Ctl
import FwkMlib.Lib.Path

/-!
# What one `netx_ctl` does to the links

* `searchItem_spec` : on a hash chain that ends, the search stops at the item of `fd` or at the end
  of the chain, with `item_save_pt` at the link read last (`tailPt`);
* `seg_store` : a store through that link retargets the walked part of the chain and nothing else;
* `DelSpec`, `AddSpec` : every link and field after the two rewiring cases, for any poll object in
  which the dereferenced links are not null.
-/

namespace FwkMlib.Netx
open FwkMlib.Lib

namespace NetxPoll

abbrev hashNext (p : NetxPoll) (i : Nat) : Option Nat := (p.items i).hashNext

theorem items_store (p : NetxPoll) (pt : ItemPt) (v : Option Nat) (j : Nat) :
    (p.store pt v).items j =
      { p.items j with hashNext := if pt = .hashNext j then v else p.hashNext j } := by
  cases pt with
  | bucket b => simp [store]
  | hashNext i =>
    simp only [store, items_modifyItem, ItemPt.hashNext.injEq]
    by_cases h : j = i
    · subst h; simp
    · simp [h, Ne.symm h]

theorem hashTable_store (p : NetxPoll) (pt : ItemPt) (v : Option Nat) (b : Nat) :
    (p.store pt v).hashTable b = if pt = .bucket b then v else p.hashTable b := by
  cases pt with
  | bucket c => simp [store, Function.update_apply, eq_comm]
  | hashNext i => simp [store]

@[simp] theorem magic_store (p : NetxPoll) (pt : ItemPt) (v : Option Nat) :
    (p.store pt v).magic = p.magic := by cases pt <;> rfl

@[simp] theorem maxCounts_store (p : NetxPoll) (pt : ItemPt) (v : Option Nat) :
    (p.store pt v).maxCounts = p.maxCounts := by cases pt <;> rfl

@[simp] theorem counts_store (p : NetxPoll) (pt : ItemPt) (v : Option Nat) :
    (p.store pt v).counts = p.counts := by cases pt <;> rfl

@[simp] theorem hashSize_store (p : NetxPoll) (pt : ItemPt) (v : Option Nat) :
    (p.store pt v).hashSize = p.hashSize := by cases pt <;> rfl

@[simp] theorem freeList_store (p : NetxPoll) (pt : ItemPt) (v : Option Nat) :
    (p.store pt v).freeList = p.freeList := by cases pt <;> rfl

@[simp] theorem usedList_store (p : NetxPoll) (pt : ItemPt) (v : Option Nat) :
    (p.store pt v).usedList = p.usedList := by cases pt <;> rfl

/-! ## The search loop -/

/-- The link `item_save_pt` points to after walking the items `c` from `pt`. -/
def tailPt (pt : ItemPt) (c : List Nat) : ItemPt :=
  match c.getLast? with
  | none => pt
  | some j => .hashNext j

theorem tailPt_cons (pt : ItemPt) (i : Nat) (c : List Nat) :
    tailPt pt (i :: c) = tailPt (.hashNext i) c := by
  unfold tailPt
  cases c with
  | nil => simp
  | cons j c => simp [List.getLast?_eq_some_getLast]

inductive SearchEnd (p : NetxPoll) (fd : Int) (pt : ItemPt) (chain : List Nat) :
    ItemPt × Option Nat → Prop
  | found (c₁ c₂ : List Nat) (item : Nat) (hchain : chain = c₁ ++ item :: c₂)
      (hfd : (p.items item).fd = fd) : SearchEnd p fd pt chain (tailPt pt c₁, some item)
  | absent (hfd : ∀ i ∈ chain, (p.items i).fd ≠ fd) :
      SearchEnd p fd pt chain (tailPt pt chain, none)

theorem searchItem_spec (p : NetxPoll) (fd : Int) {chain : List Nat} :
    ∀ {pt : ItemPt} {fuel : Nat}, Path p.hashNext (p.load pt) chain → chain.length < fuel →
      ∃ r, p.searchItem fd fuel pt = some r ∧ SearchEnd p fd pt chain r := by
  induction chain with
  | nil =>
    intro pt fuel h hf
    obtain ⟨fuel, rfl⟩ := Nat.exists_eq_succ_of_ne_zero (Nat.ne_of_gt hf)
    have hl : p.load pt = none := h
    exact ⟨_, by rw [searchItem, hl]; rfl, .absent (fun i hi => absurd hi (by simp))⟩
  | cons i c ih =>
    intro pt fuel h hf
    obtain ⟨fuel, rfl⟩ := Nat.exists_eq_succ_of_ne_zero (Nat.ne_of_gt (Nat.zero_lt_of_lt hf))
    obtain ⟨hl, h⟩ := h
    rw [searchItem, hl]
    by_cases hfd : fd = (p.items i).fd
    · refine ⟨(pt, some i), by simp [hfd], ?_⟩
      exact .found [] c i rfl hfd.symm
    · obtain ⟨r, hr, hend⟩ := @ih (.hashNext i) fuel h (by simpa using hf)
      refine ⟨r, by simpa [hfd] using hr, ?_⟩
      cases hend with
      | found c₁ c₂ item hchain hfd' =>
        rw [← tailPt_cons pt]
        exact .found (i :: c₁) c₂ item (by rw [hchain]; rfl) hfd'
      | absent hall =>
        rw [← tailPt_cons pt]
        refine .absent fun j hj => ?_
        rcases List.mem_cons.1 hj with rfl | hj
        · exact Ne.symm hfd
        · exact hall j hj

theorem tailPt_eq_hashNext {b j : Nat} {c : List Nat} (h : tailPt (.bucket b) c = .hashNext j) :
    j ∈ c := by
  unfold tailPt at h
  split at h
  · cases h
  · next k hk => cases h; exact List.mem_of_getLast? hk

theorem tailPt_eq_bucket {b b' : Nat} {c : List Nat} (h : tailPt (.bucket b) c = .bucket b') :
    b' = b := by
  unfold tailPt at h
  split at h
  · cases h; rfl
  · cases h

/-- Storing through the link reached after `c` retargets the walk through `c`. -/
theorem seg_store {p : NetxPoll} {b : Nat} {c : List Nat} {q v : Option Nat}
    (h : Seg p.hashNext (p.hashTable b) c q) (hc : c.Nodup) :
    Seg (p.store (tailPt (.bucket b) c) v).hashNext
      ((p.store (tailPt (.bucket b) c) v).hashTable b) c v := by
  rcases List.eq_nil_or_concat c with rfl | ⟨l, z, rfl⟩
  · simp [tailPt, hashTable_store]
  · rw [List.concat_eq_append] at h hc ⊢
    have ht : tailPt (.bucket b) (l ++ [z]) = .hashNext z := by simp [tailPt]
    have hz : z ∉ l := fun hm => by
      have := List.nodup_append_comm.1 hc
      simp_all
    rw [ht, hashTable_store, if_neg (by simp)]
    refine h.retarget (by simp [hashNext, items_store]) fun a ha => ?_
    have hza : z ≠ a := fun e => hz (e ▸ ha)
    simp [hashNext, items_store, hza]

/-! ## The used ring -/

structure SameButRing (p q : NetxPoll) : Prop where
  magic : q.magic = p.magic
  maxCounts : q.maxCounts = p.maxCounts
  hashSize : q.hashSize = p.hashSize
  counts : q.counts = p.counts
  freeList : q.freeList = p.freeList
  hashTable : q.hashTable = p.hashTable
  hashNext : ∀ j, q.hashNext j = p.hashNext j
  fd : ∀ j, (q.items j).fd = (p.items j).fd
  event : ∀ j, (q.items j).event = (p.items j).event

namespace SameButRing

variable {p q : NetxPoll}

theorem refl (p : NetxPoll) : SameButRing p p :=
  ⟨rfl, rfl, rfl, rfl, rfl, rfl, fun _ => rfl, fun _ => rfl, fun _ => rfl⟩

theorem setUsed (h : SameButRing p q) (u : Option Nat) : SameButRing p { q with usedList := u } :=
  ⟨h.magic, h.maxCounts, h.hashSize, h.counts, h.freeList, h.hashTable, h.hashNext, h.fd, h.event⟩

theorem modifyItem (h : SameButRing p q) (i : Nat) (f : NetxItem → NetxItem)
    (hf : ∀ it, (f it).hashNext = it.hashNext ∧ (f it).fd = it.fd ∧ (f it).event = it.event) :
    SameButRing p (q.modifyItem i f) := by
  have hitem : ∀ j, ((q.modifyItem i f).items j).hashNext = (q.items j).hashNext ∧
      ((q.modifyItem i f).items j).fd = (q.items j).fd ∧
      ((q.modifyItem i f).items j).event = (q.items j).event := by
    intro j
    rw [items_modifyItem]
    split_ifs with hj
    · rw [hj]
      exact hf (q.items i)
    · exact ⟨rfl, rfl, rfl⟩
  exact ⟨h.magic, h.maxCounts, h.hashSize, h.counts, h.freeList, h.hashTable,
    fun j => (hitem j).1.trans (h.hashNext j), fun j => (hitem j).2.1.trans (h.fd j),
    fun j => (hitem j).2.2.trans (h.event j)⟩

theorem setNext (h : SameButRing p q) (i : Nat) (v : Option Nat) :
    SameButRing p (q.modifyItem i fun it => { it with next := v }) :=
  h.modifyItem i _ fun _ => ⟨rfl, rfl, rfl⟩

theorem setPrev (h : SameButRing p q) (i : Nat) (v : Option Nat) :
    SameButRing p (q.modifyItem i fun it => { it with prev := v }) :=
  h.modifyItem i _ fun _ => ⟨rfl, rfl, rfl⟩

end SameButRing

/-- The ring links after unlinking `item`, whose neighbours are `a` and `b`. -/
structure Unlinked (p : NetxPoll) (item a b : Nat) (q : NetxPoll) : Prop where
  same : SameButRing p q
  usedList : q.usedList =
    if some item = p.usedList then (if item = a then none else some b) else p.usedList
  next : ∀ j ≠ item, (q.items j).next = if j = a then some b else (p.items j).next
  prev : ∀ j ≠ item, (q.items j).prev = if j = b then some a else (p.items j).prev

theorem unlinkUsed_spec {p : NetxPoll} {item a b : Nat} (ha : (p.items item).prev = some a)
    (hb : (p.items item).next = some b) :
    ∃ q, p.unlinkUsed item = some q ∧ Unlinked p item a b q := by
  -- linking the left neighbour to the right one keeps what is read of `item` afterwards
  have hb' : ∀ u, (({ p with usedList := u }.modifyItem a
      fun it => { it with next := some b }).items item).next = some b := by
    intro u
    rw [items_modifyItem]
    split
    · rfl
    · exact hb
  have ha' : ∀ u, (({ p with usedList := u }.modifyItem a
      fun it => { it with next := some b }).items item).prev = some a := by
    intro u
    rw [items_modifyItem]
    split
    · next h => subst h; exact ha
    · exact ha
  refine ⟨_, by
    unfold unlinkUsed
    simp only [ha, hb, hb', ha', Option.bind_eq_bind, Option.bind_some]
    rfl, ⟨?_, ?_, ?_, ?_⟩⟩
  · exact (((((SameButRing.refl p).setUsed _).setNext a _).setPrev b _).setNext item _).setPrev item _
  · simp
  · intro j hj
    simp only [items_modifyItem, if_neg hj]
    split_ifs <;> simp_all
  · intro j hj
    simp only [items_modifyItem, if_neg hj]
    split_ifs <;> simp_all

/-- The ring links after linking `item` in between the last node `z` and the head `u` (both are
`item` itself when the ring was empty). -/
structure LinkedIn (p : NetxPoll) (item u z : Nat) (q : NetxPoll) : Prop where
  same : SameButRing p q
  usedList : q.usedList = some u
  nextItem : (q.items item).next = some u
  prevItem : (q.items item).prev = some z
  next : ∀ j ≠ item, (q.items j).next = if j = z then some item else (p.items j).next
  prev : ∀ j ≠ item, (q.items j).prev = if j = u then some item else (p.items j).prev

theorem linkUsed_empty {p : NetxPoll} {item : Nat} (hu : p.usedList = none) :
    ∃ q, p.linkUsed item = some q ∧ LinkedIn p item item item q := by
  refine ⟨_, by unfold linkUsed; rw [hu], ⟨?_, rfl, ?_, ?_, ?_, ?_⟩⟩
  · exact (((SameButRing.refl p).setNext item _).setPrev item _).setUsed _
  · simp [items_modifyItem]
  · simp [items_modifyItem]
  · intro j hj; simp [items_modifyItem, hj]
  · intro j hj; simp [items_modifyItem, hj]

theorem linkUsed_nonempty {p : NetxPoll} {item u z : Nat} (hu : p.usedList = some u)
    (hz : (p.items u).prev = some z) (hiu : item ≠ u) (hiz : item ≠ z) :
    ∃ q, p.linkUsed item = some q ∧ LinkedIn p item u z q := by
  have hz' : ((p.modifyItem item fun it => { it with next := some u }).items u).prev = some z := by
    rw [items_modifyItem, if_neg hiu.symm]
    exact hz
  have hz'' : (((p.modifyItem item fun it => { it with next := some u }).modifyItem item
      fun it => { it with prev := some z }).items u).prev = some z := by
    rw [items_modifyItem, if_neg hiu.symm]
    exact hz'
  refine ⟨_, by
    unfold linkUsed
    rw [hu]
    simp only [hz', hz'', Option.bind_eq_bind, Option.bind_some]
    rfl, ⟨?_, ?_, ?_, ?_, ?_, ?_⟩⟩
  · exact ((((SameButRing.refl p).setNext item _).setPrev item _).setNext z _).setPrev u _
  · exact hu
  · simp [items_modifyItem, hiu, hiz]
  · simp [items_modifyItem, hiu, hiz]
  · intro j hj
    simp only [items_modifyItem, if_neg hj]
    split_ifs <;> simp_all
  · intro j hj
    simp only [items_modifyItem, if_neg hj]
    split_ifs <;> simp_all

/-! ## The two rewiring cases -/

/-- Every field after `netx_ctl_del` of an item whose neighbours in the ring are `a` and `b`. -/
structure DelSpec (p : NetxPoll) (savePt : ItemPt) (item a b : Nat) (q : NetxPoll) : Prop where
  magic : q.magic = p.magic
  maxCounts : q.maxCounts = p.maxCounts
  hashSize : q.hashSize = p.hashSize
  counts : q.counts = p.counts - 1
  freeList : q.freeList = some item
  usedList : q.usedList =
    if some item = p.usedList then (if item = a then none else some b) else p.usedList
  hashTable : ∀ c, q.hashTable c =
    if savePt = .bucket c then p.hashNext item else p.hashTable c
  hashNext : ∀ j, q.hashNext j =
    if j = item then p.freeList else if savePt = .hashNext j then p.hashNext item else p.hashNext j
  next : ∀ j ≠ item, (q.items j).next = if j = a then some b else (p.items j).next
  prev : ∀ j ≠ item, (q.items j).prev = if j = b then some a else (p.items j).prev
  fd : ∀ j ≠ item, (q.items j).fd = (p.items j).fd
  event : ∀ j ≠ item, (q.items j).event = (p.items j).event

theorem ctlDel_spec {p : NetxPoll} {savePt : ItemPt} {item a b : Nat}
    (ha : (p.items item).prev = some a) (hb : (p.items item).next = some b) :
    ∃ q, p.ctlDel savePt item = some q ∧ DelSpec p savePt item a b q := by
  obtain ⟨p₁, hp₁⟩ : ∃ p₁, p₁ = (p.modifyItem item
      fun it => { it with event := { it.event with events := 0 } }).modifyItem item
      fun it => { it with fd := 0 } := ⟨_, rfl⟩
  have hitem : ∀ j ≠ item, p₁.items j = p.items j := fun j hj => by
    simp [hp₁, items_modifyItem, hj]
  have hnext : ∀ j, (p₁.items j).next = (p.items j).next := fun j => by
    simp only [hp₁, items_modifyItem]; split_ifs <;> simp_all
  have hprev : ∀ j, (p₁.items j).prev = (p.items j).prev := fun j => by
    simp only [hp₁, items_modifyItem]; split_ifs <;> simp_all
  have hhash : ∀ j, p₁.hashNext j = p.hashNext j := fun j => by
    simp only [hp₁, NetxPoll.hashNext, items_modifyItem]; split_ifs <;> simp_all
  obtain ⟨p₂, hrun, hp₂⟩ := unlinkUsed_spec ((hprev item).trans ha) ((hnext item).trans hb)
  have hsame := hp₂.same
  refine ⟨_, by unfold ctlDel; simp only [← hp₁, hrun, Option.bind_eq_bind, Option.bind_some]; rfl,
    ⟨?_, ?_, ?_, ?_, ?_, ?_, ?_, ?_, ?_, ?_, ?_, ?_⟩⟩
  · simp [pushFree, hsame.magic, hp₁]
  · simp [pushFree, hsame.maxCounts, hp₁]
  · simp [pushFree, hsame.hashSize, hp₁]
  · simp [pushFree, hsame.counts, hp₁]
  · simp [pushFree]
  · simp [pushFree, hp₂.usedList, hp₁]
  · intro c
    have ht : p₁.hashTable = p.hashTable := by simp [hp₁]
    simp [pushFree, hashTable_store, hsame.hashTable, ht, hsame.hashNext, hhash]
  · intro j
    have hf : p₁.freeList = p.freeList := by simp [hp₁]
    simp only [pushFree, NetxPoll.hashNext, items_modifyItem, items_store, freeList_store,
      hsame.freeList, hf]
    split_ifs with h₁ h₂
    · rfl
    · exact (hsame.hashNext item).trans (hhash item)
    · exact (hsame.hashNext j).trans (hhash j)
  · intro j hj
    simp [pushFree, items_modifyItem, items_store, hj, hp₂.next j hj, hnext]
  · intro j hj
    simp [pushFree, items_modifyItem, items_store, hj, hp₂.prev j hj, hprev]
  · intro j hj
    simp [pushFree, items_modifyItem, items_store, hj, hsame.fd, hitem]
  · intro j hj
    simp [pushFree, items_modifyItem, items_store, hj, hsame.event, hitem]

/-- Every field after `netx_ctl_add` of the free item `item`, linked in between the last node `z`
and the head `u`. -/
structure AddSpec (p : NetxPoll) (savePt : ItemPt) (item u z : Nat) (fd : Int) (event : NetxEvent)
    (q : NetxPoll) : Prop where
  magic : q.magic = p.magic
  maxCounts : q.maxCounts = p.maxCounts
  hashSize : q.hashSize = p.hashSize
  counts : q.counts = p.counts + 1
  freeList : q.freeList = p.hashNext item
  usedList : q.usedList = some u
  hashTable : ∀ c, q.hashTable c = if savePt = .bucket c then some item else p.hashTable c
  hashNextItem : q.hashNext item = p.load savePt
  hashNext : ∀ j ≠ item, q.hashNext j =
    if savePt = .hashNext j then some item else p.hashNext j
  nextItem : (q.items item).next = some u
  prevItem : (q.items item).prev = some z
  next : ∀ j ≠ item, (q.items j).next = if j = z then some item else (p.items j).next
  prev : ∀ j ≠ item, (q.items j).prev = if j = u then some item else (p.items j).prev
  fdItem : (q.items item).fd = fd
  eventItem : (q.items item).event = event
  fd : ∀ j ≠ item, (q.items j).fd = (p.items j).fd
  event : ∀ j ≠ item, (q.items j).event = (p.items j).event

theorem ctlAdd_spec {p : NetxPoll} {savePt : ItemPt} {item u z : Nat} {fd : Int}
    {event : NetxEvent} (hpt : savePt ≠ .hashNext item)
    (huz : (p.usedList = none ∧ u = item ∧ z = item) ∨
      (p.usedList = some u ∧ (p.items u).prev = some z ∧ item ≠ u ∧ item ≠ z)) :
    ∃ q, p.ctlAdd savePt item fd event = some q ∧ AddSpec p savePt item u z fd event q := by
  obtain ⟨p₀, hp₀⟩ : ∃ p₀ : NetxPoll, p₀ = { p with freeList := p.hashNext item } := ⟨_, rfl⟩
  obtain ⟨p₁, hp₁⟩ : ∃ p₁, p₁ = (p₀.modifyItem item
      fun it => { it with hashNext := p₀.load savePt }).store savePt (some item) := ⟨_, rfl⟩
  have hload : p₀.load savePt = p.load savePt := by rw [hp₀]; cases savePt <;> rfl
  have hitem : ∀ j ≠ item, p₁.items j =
      { p.items j with hashNext := if savePt = .hashNext j then some item else p.hashNext j } := by
    intro j hj
    simp [hp₁, hp₀, NetxPoll.hashNext, items_modifyItem, items_store, hj]
  have hitem' : p₁.items item = { p.items item with hashNext := p.load savePt } := by
    rw [hp₁, items_store, if_neg hpt, ← hload]
    simp [NetxPoll.hashNext, items_modifyItem, hp₀]
  have hprev : ∀ j, (p₁.items j).prev = (p.items j).prev := by
    intro j
    by_cases hj : j = item
    · subst hj; rw [hitem']
    · rw [hitem j hj]
  have hused : p₁.usedList = p.usedList := by simp [hp₁, hp₀]
  obtain ⟨p₂, hrun, hp₂⟩ : ∃ q, p₁.linkUsed item = some q ∧ LinkedIn p₁ item u z q := by
    rcases huz with ⟨hu, rfl, rfl⟩ | ⟨hu, hz, hiu, hiz⟩
    · exact linkUsed_empty (hused.trans hu)
    · exact linkUsed_nonempty (hused.trans hu) ((hprev u).trans hz) hiu hiz
  have hsame := hp₂.same
  refine ⟨_, by
    unfold ctlAdd
    simp only [← hp₀, ← hp₁, hrun, Option.bind_eq_bind, Option.bind_some]
    rfl, ⟨?_, ?_, ?_, ?_, ?_, ?_, ?_, ?_, ?_, ?_, ?_, ?_, ?_, ?_, ?_, ?_, ?_⟩⟩
  · simp [hsame.magic, hp₁, hp₀]
  · simp [hsame.maxCounts, hp₁, hp₀]
  · simp [hsame.hashSize, hp₁, hp₀]
  · simp [hsame.counts, hp₁, hp₀]
  · simp [hsame.freeList, hp₁, hp₀]
  · simp [hp₂.usedList]
  · intro c
    simp [hsame.hashTable, hp₁, hashTable_store, hp₀]
  · have h := hsame.hashNext item
    rw [show p₁.hashNext item = p.load savePt by rw [NetxPoll.hashNext, hitem']] at h
    simpa [NetxPoll.hashNext, items_modifyItem] using h
  · intro j hj
    have h := hsame.hashNext j
    rw [show p₁.hashNext j = _ from congrArg NetxItem.hashNext (hitem j hj)] at h
    simpa [NetxPoll.hashNext, items_modifyItem, hj] using h
  · simp [items_modifyItem, hp₂.nextItem]
  · simp [items_modifyItem, hp₂.prevItem]
  · intro j hj
    simp [items_modifyItem, hj, hp₂.next j hj, hitem]
  · intro j hj
    simp [items_modifyItem, hj, hp₂.prev j hj, hitem]
  · simp [items_modifyItem]
  · simp [items_modifyItem]
  · intro j hj
    simp [items_modifyItem, hj, hsame.fd, hitem]
  · intro j hj
    simp [items_modifyItem, hj, hsame.event, hitem]

end NetxPoll

end FwkMlib.Netx
