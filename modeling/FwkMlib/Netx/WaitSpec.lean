import FwkMlib.Netx.Wait
import FwkMlib.Netx.Inv

/-!
# What `netx_wait` computes on a well-formed ring

* `setSets_ring`, `checkEvents_ring` : on a ring the two loops are a left fold and a scan over the
  items in ring order, and both are left after one round;
* `foldlM_watchItem` : with every watched fd inside the bitmaps the fold is the union of the interests
  of the registrations (`interests`);
* `scan_entries` : the second one writes the ready registrations in ring order and stops at the end
  of the ring or when the output is full;
* `wait_eq` : both together.
-/

namespace FwkMlib.Netx
open FwkMlib.Lib

def NetxItem.entry (item : NetxItem) : Int × NetxEvent := (item.fd, item.event)

namespace NetxPoll

/-- The second loop over a list of items. -/
def scan (fs : FdSets) (maxEventsCounts : Nat) :
    List NetxItem → List (Int × NetxEvent) → Option (List (Int × NetxEvent) × WaitExit)
  | [], out => some (out, .done)
  | item :: rest, out => do
    let event ← checkEvent item fs
    let out := if event ≠ 0 then out ++ [(item.fd, ⟨event, item.event.data⟩)] else out
    if event ≠ 0 ∧ out.length = maxEventsCounts then some (out, .full)
    else scan fs maxEventsCounts rest out

variable {p : NetxPoll} {u : Nat}

/-- The link read at `i` when the nodes left are `r`, and the test that ends both loops. -/
theorem next_of_chain {i : Nat} {r : List Nat} (hc : List.IsChain p.Linked (i :: (r ++ [u])))
    (hu : p.usedList = some u) (hur : u ∉ r) :
    (r = [] ∧ (p.items i).next = some u) ∨
    ∃ j r', r = j :: r' ∧ (p.items i).next = some j ∧ some j ≠ p.usedList ∧
      List.IsChain p.Linked (j :: (r' ++ [u])) ∧ u ∉ r' := by
  cases r with
  | nil => exact .inl ⟨rfl, hc.rel.1⟩
  | cons j r' =>
    rw [List.cons_append, List.isChain_cons_cons] at hc
    refine .inr ⟨j, r', rfl, hc.1.1, ?_, hc.2, fun h => hur (List.mem_cons_of_mem j h)⟩
    rw [hu]
    intro h
    exact hur (Option.some.inj h ▸ List.mem_cons_self)

theorem setSets_chain (hu : p.usedList = some u) : ∀ (fuel i : Nat) (r : List Nat)
    (fs : FdSets × Int), List.IsChain p.Linked (i :: (r ++ [u])) → u ∉ r → r.length < fuel →
    p.setSets fuel i fs = (i :: r).foldlM (fun fs j => watchItem (p.items j) fs) fs := by
  intro fuel
  induction fuel with
  | zero => intro i r fs _ _ h; exact absurd h (Nat.not_lt_zero _)
  | succ fuel ih =>
    intro i r fs hc hur hlen
    unfold setSets
    rw [List.foldlM_cons]
    cases hw : watchItem (p.items i) fs with
    | none => rfl
    | some fs' =>
      simp only [Option.bind_eq_bind, Option.bind_some]
      rcases next_of_chain hc hu hur with ⟨rfl, hn⟩ | ⟨j, r', rfl, hn, hne, hc', hur'⟩
      · rw [hn, if_pos hu.symm]
        rfl
      · rw [hn, if_neg hne]
        exact ih j r' fs' hc' hur' (by simpa using hlen)

theorem checkEvents_chain (hu : p.usedList = some u) (fs : FdSets) (max : Nat) :
    ∀ (fuel i : Nat) (r : List Nat) (out : List (Int × NetxEvent)),
      List.IsChain p.Linked (i :: (r ++ [u])) → u ∉ r → r.length < fuel →
      p.checkEvents fs max fuel i out = scan fs max ((i :: r).map p.items) out := by
  intro fuel
  induction fuel with
  | zero => intro i r out _ _ h; exact absurd h (Nat.not_lt_zero _)
  | succ fuel ih =>
    intro i r out hc hur hlen
    unfold checkEvents
    rw [List.map_cons, scan]
    rcases next_of_chain hc hu hur with ⟨rfl, hn⟩ | ⟨j, r', rfl, hn, hne, hc', hur'⟩
    · rw [hn]
      cases checkEvent (p.items i) fs with
      | none => rfl
      | some event =>
        simp only [Option.bind_eq_bind, Option.bind_some, if_pos hu.symm]
        rfl
    · rw [hn]
      cases checkEvent (p.items i) fs with
      | none => rfl
      | some event =>
        simp only [Option.bind_eq_bind, Option.bind_some, if_neg hne]
        rw [ih j r' _ hc' hur' (by simpa using hlen)]

/-- On the used ring both loops run once over the items in ring order. -/
theorem setSets_ring {l : List Nat} (hi : PollInv p (u :: l)) (fs : FdSets × Int) :
    p.setSets p.maxCounts u fs = (u :: l).foldlM (fun fs j => watchItem (p.items j) fs) fs :=
  setSets_chain hi.usedList _ _ _ _ ((Cycle.chain_coe_cons _ _ _).1 hi.ring.chain)
    (List.nodup_cons.1 hi.ring.nodup).1 hi.length_le

theorem checkEvents_ring {l : List Nat} (hi : PollInv p (u :: l)) (fs : FdSets) (max : Nat)
    (out : List (Int × NetxEvent)) :
    p.checkEvents fs max p.maxCounts u out = scan fs max ((u :: l).map p.items) out :=
  checkEvents_chain hi.usedList _ _ _ _ _ _ ((Cycle.chain_coe_cons _ _ _).1 hi.ring.chain)
    (List.nodup_cons.1 hi.ring.nodup).1 hi.length_le

end NetxPoll

/-! ## The interests of the registrations -/

def Watched (e : Int × NetxEvent) : Prop :=
  e.2.events &&& netxEventIn ≠ 0 ∨ e.2.events &&& netxEventOut ≠ 0 ∨ e.2.events &&& netxEventEt ≠ 0

instance (e : Int × NetxEvent) : Decidable (Watched e) :=
  inferInstanceAs (Decidable (_ ∨ _ ∨ _))

def interest (bit : Nat) (es : List (Int × NetxEvent)) : FdSet :=
  fun fd => es.any fun e => decide (e.1 = fd ∧ e.2.events &&& bit ≠ 0)

/-- What `select` is asked about. -/
def interests (es : List (Int × NetxEvent)) : FdSets :=
  ⟨interest netxEventIn es, interest netxEventOut es, interest netxEventEt es⟩

def readyEvents (fs : FdSets) (e : Int × NetxEvent) : Nat :=
  (if e.2.events &&& netxEventIn ≠ 0 ∧ fs.fsIn e.1 then netxEventIn else 0) |||
  (if e.2.events &&& netxEventOut ≠ 0 ∧ fs.fsOut e.1 then netxEventOut else 0) |||
  (if e.2.events &&& netxEventEt ≠ 0 ∧ fs.fsEt e.1 then netxEventEt else 0)

/-- The entries written for the ready registrations. -/
def reports (fs : FdSets) (es : List (Int × NetxEvent)) : List (Int × NetxEvent) :=
  (es.filter fun e => readyEvents fs e ≠ 0).map fun e => (e.1, ⟨readyEvents fs e, e.2.data⟩)

def maxWatched (es : List (Int × NetxEvent)) (m : Int) : Int :=
  es.foldl (fun m e => if Watched e ∧ m < e.1 then e.1 else m) m

theorem maxWatched_pos_iff {es : List (Int × NetxEvent)} :
    ∀ {m : Int}, 0 < maxWatched es m ↔ 0 < m ∨ ∃ e ∈ es, Watched e ∧ 0 < e.1 := by
  induction es with
  | nil => intro m; simp [maxWatched]
  | cons e es ih =>
    intro m
    rw [maxWatched, List.foldl_cons]
    refine Iff.trans (@ih (if Watched e ∧ m < e.1 then e.1 else m)) ?_
    simp only [List.exists_mem_cons_iff]
    split_ifs with h
    · constructor
      · rintro (h' | h')
        · exact .inr (.inl ⟨h.1, h'⟩)
        · exact .inr (.inr h')
      · rintro (h' | h' | h')
        · exact .inl (by omega)
        · exact .inl h'.2
        · exact .inr h'
    · constructor
      · rintro (h' | h')
        · exact .inl h'
        · exact .inr (.inr h')
      · rintro (h' | ⟨hw, h'⟩ | h')
        · exact .inl h'
        · exact .inl (by have : ¬ m < e.1 := fun hlt => h ⟨hw, hlt⟩; omega)
        · exact .inr h'

def FdSet.union (s t : FdSet) : FdSet := fun fd => s fd || t fd

theorem watch_eq {bit : Nat} {item : NetxItem} (fs : FdSet) (m : Int)
    (hfd : item.event.events &&& bit ≠ 0 → InFdSet item.fd) :
    watch bit item fs m = some (FdSet.union fs (interest bit [item.entry]),
      if item.event.events &&& bit ≠ 0 ∧ m < item.fd then item.fd else m) := by
  by_cases h : item.event.events &&& bit ≠ 0
  · have hset : Function.update fs item.fd true = FdSet.union fs (interest bit [item.entry]) := by
      funext fd
      by_cases he : fd = item.fd
      · subst he; simp [FdSet.union, interest, NetxItem.entry, h]
      · simp [FdSet.union, interest, NetxItem.entry, he, Ne.symm he]
    unfold watch
    rw [if_pos h, FD_SET, if_pos (hfd h), ← hset]
    simp [h]
  · have hnone : FdSet.union fs (interest bit [item.entry]) = fs := by
      funext fd
      have h0 : item.event.events &&& bit = 0 := not_not.1 h
      simp [FdSet.union, interest, NetxItem.entry, h0]
    unfold watch
    rw [if_neg h, hnone, if_neg fun h' => h h'.1]

/-- The requested sets grow by the item's interests, the largest fd by the item's fd. -/
theorem watchItem_eq {item : NetxItem} (fs : FdSets) (m : Int)
    (hfd : Watched item.entry → InFdSet item.fd) :
    watchItem item (fs, m) = some
      (⟨FdSet.union fs.fsIn (interest netxEventIn [item.entry]),
        FdSet.union fs.fsOut (interest netxEventOut [item.entry]),
        FdSet.union fs.fsEt (interest netxEventEt [item.entry])⟩,
      if Watched item.entry ∧ m < item.fd then item.fd else m) := by
  unfold watchItem
  rw [watch_eq fs.fsIn m fun h => hfd (.inl h)]
  simp only [Option.bind_eq_bind, Option.bind_some]
  rw [watch_eq _ _ fun h => hfd (.inr (.inl h))]
  simp only [Option.bind_some]
  rw [watch_eq _ _ fun h => hfd (.inr (.inr h))]
  simp only [Option.bind_some, Option.some.injEq, Prod.mk.injEq, true_and]
  by_cases h₁ : item.event.events &&& netxEventIn ≠ 0 <;>
    by_cases h₂ : item.event.events &&& netxEventOut ≠ 0 <;>
      by_cases h₃ : item.event.events &&& netxEventEt ≠ 0 <;>
        by_cases hm : m < item.fd <;> simp [Watched, NetxItem.entry, h₁, h₂, h₃, hm]

theorem FdSet.union_interest (bit : Nat) (s : FdSet) (e : Int × NetxEvent)
    (es : List (Int × NetxEvent)) :
    FdSet.union (FdSet.union s (interest bit [e])) (interest bit es) =
      FdSet.union s (interest bit (e :: es)) := by
  funext fd
  simp [FdSet.union, interest, Bool.or_assoc]

theorem FdSet.zero_union (s : FdSet) : FdSet.union (fun _ => false) s = s := by
  funext fd
  simp [FdSet.union]

/-- The first loop over a list of items. -/
theorem foldlM_watchItem {items : List NetxItem} : ∀ (fs : FdSets) (m : Int),
    (∀ e ∈ items.map NetxItem.entry, Watched e → InFdSet e.1) →
    items.foldlM (fun fs item => watchItem item fs) (fs, m) = some
      (⟨FdSet.union fs.fsIn (interest netxEventIn (items.map NetxItem.entry)),
        FdSet.union fs.fsOut (interest netxEventOut (items.map NetxItem.entry)),
        FdSet.union fs.fsEt (interest netxEventEt (items.map NetxItem.entry))⟩,
      maxWatched (items.map NetxItem.entry) m) := by
  induction items with
  | nil =>
    intro fs m _
    have hnone : ∀ bit s, FdSet.union s (interest bit []) = s := fun bit s => by
      funext fd
      simp [FdSet.union, interest]
    simp [hnone, maxWatched]
  | cons item items ih =>
    intro fs m hfd
    have hhead := hfd item.entry (by simp)
    rw [List.foldlM_cons, watchItem_eq fs m hhead]
    simp only [Option.bind_eq_bind, Option.bind_some]
    rw [ih _ _ fun e he => hfd e (by simp only [List.map_cons]; exact List.mem_cons_of_mem _ he)]
    simp only [FdSet.union_interest, List.map_cons]
    rfl

/-! ## The reported registrations -/

theorem test_eq {bit : Nat} {item : NetxItem} (fs : FdSet)
    (hfd : item.event.events &&& bit ≠ 0 → InFdSet item.fd) :
    test bit item fs =
      some (if item.event.events &&& bit ≠ 0 ∧ fs item.fd then bit else 0) := by
  unfold test
  by_cases h : item.event.events &&& bit ≠ 0
  · rw [if_pos h, FD_ISSET, if_pos (hfd h)]
    simp [h]
  · rw [if_neg h, if_neg fun h' => h h'.1]

theorem checkEvent_eq {item : NetxItem} (fs : FdSets)
    (hfd : Watched item.entry → InFdSet item.fd) :
    checkEvent item fs = some (readyEvents fs item.entry) := by
  unfold checkEvent
  rw [test_eq fs.fsIn fun h => hfd (.inl h), test_eq fs.fsOut fun h => hfd (.inr (.inl h)),
    test_eq fs.fsEt fun h => hfd (.inr (.inr h))]
  rfl

theorem reports_cons (fs : FdSets) (e : Int × NetxEvent) (es : List (Int × NetxEvent)) :
    reports fs (e :: es) =
      if readyEvents fs e ≠ 0 then (e.1, ⟨readyEvents fs e, e.2.data⟩) :: reports fs es
      else reports fs es := by
  unfold reports
  by_cases h : readyEvents fs e = 0 <;> simp [h]

/-- The second loop writes the ready registrations in ring order, until the output is full. -/
theorem scan_entries {fs : FdSets} {max : Nat} {items : List NetxItem} :
    ∀ {out : List (Int × NetxEvent)}, out.length < max →
    (∀ e ∈ items.map NetxItem.entry, Watched e → InFdSet e.1) →
    NetxPoll.scan fs max items out =
      if out.length + (reports fs (items.map NetxItem.entry)).length < max then
        some (out ++ reports fs (items.map NetxItem.entry), .done)
      else
        some ((out ++ reports fs (items.map NetxItem.entry)).take max, .full) := by
  induction items with
  | nil =>
    intro out hout _
    rw [if_pos (by simpa [reports] using hout)]
    simp [NetxPoll.scan, reports]
  | cons item items ih =>
    intro out hout hfd
    have hhead := hfd item.entry (by simp)
    have htail : ∀ e ∈ items.map NetxItem.entry, Watched e → InFdSet e.1 := fun e he =>
      hfd e (by simp only [List.map_cons]; exact List.mem_cons_of_mem _ he)
    rw [NetxPoll.scan, checkEvent_eq fs hhead, List.map_cons, reports_cons]
    simp only [Option.bind_eq_bind, Option.bind_some]
    by_cases h : readyEvents fs item.entry ≠ 0
    · simp only [if_pos h, List.length_append, List.length_cons, List.length_nil]
      by_cases hfull : out.length + 1 = max
      · have htake : (out ++ (item.entry.1, ⟨readyEvents fs item.entry, item.entry.2.data⟩) ::
            reports fs (items.map NetxItem.entry)).take max =
            out ++ [(item.fd, ⟨readyEvents fs item.entry, item.event.data⟩)] := by
          rw [List.append_cons, List.take_append_of_le_length (by simp; omega),
            List.take_of_length_le (by simp; omega)]
          rfl
        rw [if_pos ⟨h, by omega⟩, if_neg (by omega), htake]
      · rw [if_neg (by omega), ih (by simp; omega) htail]
        simp only [List.length_append, List.length_cons, List.length_nil, List.append_assoc,
          List.cons_append, List.nil_append]
        have e : out.length + (0 + 1) + (reports fs (items.map NetxItem.entry)).length =
          out.length + ((reports fs (items.map NetxItem.entry)).length + 1) := by omega
        rw [e]
        rfl
    · simp only [if_neg h]
      rw [if_neg fun h' => h h'.1, ih hout htail]

/-! ## The whole wait -/

namespace NetxPoll

variable {p : NetxPoll} {u : Nat} {l : List Nat}

theorem entries_eq_map (p : NetxPoll) (used : List Nat) :
    (used.map p.items).map NetxItem.entry = p.entries used := by
  rw [List.map_map]
  rfl

/-- Registered fds are not negative. -/
theorem inFdSet_iff {used : List Nat} (hi : PollInv p used) {e : Int × NetxEvent}
    (he : e ∈ p.entries used) : InFdSet e.1 ↔ e.1 < FD_SETSIZE := by
  obtain ⟨j, hj, rfl⟩ := List.mem_map.1 he
  exact and_iff_right (hi.fdNonneg j hj)

theorem rotate_inv (hi : PollInv p (u :: l)) :
    PollInv { p with usedList := (p.items u).next } (l ++ [u]) := by
  have hmem : ∀ {j}, j ∈ l ++ [u] ↔ j ∈ u :: l := by
    intro j
    simp [or_comm]
  have hperm : (l ++ [u]).Perm (u :: l) := List.perm_append_singleton u l
  have hr : Ring p.Linked (l ++ [u]) := by
    have h : Ring p.Linked ([u] ++ l) := hi.ring
    exact h.rotate
  refine ⟨hi.magic, hi.hashSize, ?_, hr, ?_, ?_, ?_, ?_, ?_⟩
  · cases l with
    | nil => exact hi.ring.rel_self.1
    | cons j l => exact hi.ring.rel_head.1
  · rw [hi.counts.trans hperm.length_eq.symm]
  · obtain ⟨free, hpath, hfree⟩ := hi.free
    exact ⟨free, hpath, (hperm.append_right free).trans hfree⟩
  · intro b hb
    obtain ⟨chain, hpath, hiff⟩ := hi.chain b hb
    exact ⟨chain, hpath, fun j => by rw [hiff, hmem]; rfl⟩
  · exact (hperm.map _).nodup_iff.2 hi.fdNodup
  · exact fun j hj => hi.fdNonneg j (hmem.1 hj)

/-- The poll object after a wait: unchanged, or with the head moved on. -/
theorem wait_poll {max timeout : Nat} {select : Select} {ret : Int} {out : List (Int × NetxEvent)}
    {q : NetxPoll} (h : p.wait max timeout select = some (ret, out, q)) :
    q = p ∨ ∃ head, p.usedList = some head ∧ q = { p with usedList := (p.items head).next } := by
  unfold wait at h
  cases hu : p.usedList with
  | none => rw [hu] at h; exact absurd h (by simp)
  | some head =>
    rw [hu] at h
    simp only [Option.bind_eq_bind, Option.bind_some] at h
    obtain ⟨⟨fs, maxSock⟩, -, h⟩ := Option.bind_eq_some_iff.1 h
    split_ifs at h
    · cases h; exact .inl rfl
    · cases h; exact .inl rfl
    · cases h; exact .inl rfl
    · obtain ⟨⟨out', exit⟩, -, h⟩ := Option.bind_eq_some_iff.1 h
      cases exit <;> cases h
      · exact .inl rfl
      · exact .inl rfl
      · exact .inr ⟨head, rfl, rfl⟩

theorem wait_inv {used : List Nat} {max timeout : Nat} {select : Select} {ret : Int}
    {out : List (Int × NetxEvent)} {q : NetxPoll} (hi : PollInv p used)
    (h : p.wait max timeout select = some (ret, out, q)) :
    q.maxCounts = p.maxCounts ∧ ∃ used', PollInv q used' := by
  rcases wait_poll h with rfl | ⟨head, hu, rfl⟩
  · exact ⟨rfl, used, hi⟩
  · cases used with
    | nil => exact absurd (hu.symm.trans hi.usedList) (by simp)
    | cons u l =>
      obtain rfl : head = u := Option.some.inj (hu.symm.trans hi.usedList)
      exact ⟨rfl, l ++ [head], rotate_inv hi⟩

/-- With the watched fds inside the bitmaps the first loop collects the interests and the largest
watched fd. -/
theorem setSets_eq (hi : PollInv p (u :: l))
    (hfd : ∀ e ∈ p.entries (u :: l), Watched e → InFdSet e.1) :
    p.setSets p.maxCounts u (FdSets.zero, 0) =
      some (interests (p.entries (u :: l)), maxWatched (p.entries (u :: l)) 0) := by
  rw [setSets_ring hi, ← entries_eq_map]
  have := foldlM_watchItem FdSets.zero 0 (by rw [entries_eq_map]; exact hfd)
  rw [List.foldlM_map] at this
  rw [this]
  simp only [FdSets.zero, FdSet.zero_union, interests]

/-- A wait whose watched fds fit the bitmaps and are not all `0`: `select` is asked about the
interests of all registrations, and its answer is reported in ring order. -/
theorem wait_eq (hi : PollInv p (u :: l))
    (hfd : ∀ e ∈ p.entries (u :: l), Watched e → InFdSet e.1)
    (hpos : ∃ e ∈ p.entries (u :: l), Watched e ∧ 0 < e.1) {max : Nat} (hmax : 0 < max)
    (timeout : Nat) (select : Select) {ret : Int} {fs : FdSets}
    (hsel : select (maxWatched (p.entries (u :: l)) 0 + 1) (interests (p.entries (u :: l)))
      (timeout / 1000) (1000 * (timeout % 1000)) = (ret, fs)) :
    p.wait max timeout select =
      if ret < 0 then some ((-2 : Int), [], p) else
      if ret = 0 then some (0, [], p) else
      if (reports fs (p.entries (u :: l))).length < max then
        some (((reports fs (p.entries (u :: l))).length : Int), reports fs (p.entries (u :: l)),
          { p with usedList := (p.items u).next })
      else some ((max : Int), (reports fs (p.entries (u :: l))).take max, p) := by
  have hms : maxWatched (p.entries (u :: l)) 0 ≠ 0 := ne_of_gt (maxWatched_pos_iff.2 (.inr hpos))
  have hscan := @scan_entries fs max ((u :: l).map p.items) [] hmax
    (by rw [entries_eq_map]; exact hfd)
  unfold wait
  rw [hi.usedList]
  simp only [List.head?_cons, Option.bind_eq_bind, Option.bind_some, setSets_eq hi hfd, if_neg hms, hsel]
  rw [checkEvents_ring hi, hscan, entries_eq_map]
  simp only [List.length_nil, Nat.zero_add, List.nil_append]
  split_ifs with h₁ h₂ h₃
  · rfl
  · rfl
  · rfl
  · simp only [Option.bind_some, List.length_take]
    rw [Nat.min_eq_left (Nat.le_of_not_lt h₃)]

end NetxPoll

end FwkMlib.Netx
