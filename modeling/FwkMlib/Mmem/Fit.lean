import FwkMlib.Mmem.Atomic
import FwkMlib.Mmem.Guard

/-!
# What a request gets

The region a granted request obtains has room for what was asked for, as long as the sum of the
header, the bytes and the guard does not wrap.

* `Request` : a call that asks for memory; `Request.exact` : the bytes it asks for;
* `Serves` : the address returned has room for them, and what cannot be represented is refused;
* `Reach.serves_iff` : that is so exactly when the sum fits, or nothing is granted and the list keeps
  its order;
* `calloc_wraps` : a product that wraps.
-/

namespace FwkMlib.Mmem
open FwkMlib.Lib FwkMlib.Mlist

variable {s s' : State} {h h' : Heap} {b : Blk} {ans : Answer} {size file : Nat} {line : Int}

inductive Request
  | alloc (size : Nat)
  | calloc (counts itemSize : Nat)
  | realloc (addr size : Nat)

def Request.exact : Request → Nat
  | .alloc size => size
  | .calloc counts itemSize => counts * itemSize
  | .realloc _ size => size

def Request.run (s : State) (file : Nat) (line : Int) (ans : Answer) : Request → Option (State × Nat)
  | .alloc size => mmemAlloc s size file line ans
  | .calloc counts itemSize => mmemCalloc s counts itemSize file line ans
  | .realloc addr size => mmemRealloc s addr size file line ans

/-- The answer is one to the request as the module makes it, and an address is `NULL` or that of a
live block. -/
def Request.Answered (s : State) (h : Heap) (ans : Answer) : Request → Prop
  | .alloc size => size ≠ 0 → ans.Lawful s.list s.regions (totalSize size)
  | .calloc counts itemSize => counts ≠ 0 → itemSize ≠ 0 →
    ans.Lawful s.list s.regions (totalSize (counts * itemSize % 2 ^ 64)) ∧
      ans.Zeroed (totalSize (counts * itemSize % 2 ^ 64))
  | .realloc addr size =>
    if addr = NULL then size ≠ 0 → ans.Lawful s.list s.regions (totalSize size)
    else ∃ b ∈ h.blocks, b.data = addr ∧ (size ≠ 0 →
      ans.Lawful s.list (otherRegions s.regions b.addr) (totalSize size) ∧
        ans.Copies b.region (totalSize size))

/-- The sum fits; or nothing is granted, and no block is moved behind the others. -/
def Request.Served (h : Heap) (ans : Answer) : Request → Prop
  | .alloc size => size + 64 < 2 ^ 64 ∨ ans.addr = none
  | .calloc counts itemSize => counts * itemSize + 64 < 2 ^ 64 ∨ ans.addr = none
  | .realloc addr size => size + 64 < 2 ^ 64 ∨
    if addr = NULL then ans.addr = none
    else ∃ b ∈ h.blocks, b.data = addr ∧
      (¬ h.Intact b ∨ ans.addr = none ∧ h.blocks.getLast? = some b)

structure Unchanged (s s' : State) (h : Heap) : Prop where
  table : s'.table = s.table
  list : Ring (Linked (blockTableGet s').mem) (nodesOf s.list h.blocks)

/-- A request for `n` bytes came back with the address `a`. -/
structure Serves (s s' : State) (h : Heap) (a n : Nat) : Prop where
  room : a ≠ NULL → ∃ r, s'.regions.getLast? = some r ∧ blockData r.1 = a ∧
    MMEM_BLOCK_SIZE + n + 8 ≤ r.2 ∧ blockTail s'.mem r.1 = a + n
  refused : 2 ^ 64 ≤ MMEM_BLOCK_SIZE + n + 8 → a = NULL ∧ Unchanged s s' h

/-! ## Granted and refused requests -/

theorem serves_null {n : Nat} (hn : n + 64 < 2 ^ 64) : Serves s s' h NULL n :=
  ⟨fun hne => absurd rfl hne, fun hle => by unfold MMEM_BLOCK_SIZE at hle; omega⟩

theorem serves_unchanged {n : Nat} (hu : Unchanged s s' h) : Serves s s' h NULL n :=
  ⟨fun hne => absurd rfl hne, fun _ => ⟨rfl, hu⟩⟩

theorem not_serves {n a : Nat} (hn : ¬ n + 64 < 2 ^ 64) : ¬ Serves s s' h (blockData a) n :=
  fun hs => blockData_ne_null a (hs.refused (by unfold MMEM_BLOCK_SIZE; omega)).1

theorem Inv.unchanged (hi : Inv s' h) (hl : s'.list = s.list) (ht : s'.table = s.table) :
    Unchanged s s' h :=
  ⟨ht, by rw [← hl]; exact hi.tableConsistent.ring⟩

/-- The block a granted request got. -/
theorem Inv.serves (hi : Inv s' h') (hb : b ∈ h'.blocks) (hr : s'.regions.getLast? = some b.region)
    (hn : b.size + 64 < 2 ^ 64) : Serves s s' h b.data b.size := by
  refine ⟨fun _ => ⟨b.region, hr, rfl, ?_, hi.tracks.blockTail hb⟩, fun hle => ?_⟩
  · unfold Blk.region MMEM_BLOCK_SIZE
    omega
  · unfold MMEM_BLOCK_SIZE at hle
    omega

/-! ## The requests -/

theorem Inv.alloc_serves_iff (hi : Inv s h) (file : Nat) (line : Int)
    (hl : size ≠ 0 → ans.Lawful s.list s.regions (totalSize size)) :
    ∃ s' a, mmemAlloc s size file line ans = some (s', a) ∧
      (Serves s s' h a size ↔ size + 64 < 2 ^ 64 ∨ ans.addr = none) := by
  by_cases hs : size = 0
  · subst hs
    exact ⟨s, NULL, mmemAlloc_zero hi.unlocked, iff_of_true (serves_null (by decide))
      (.inl (by decide))⟩
  cases ha : ans.addr with
  | none =>
    have hef := @Inv.refused _ _ _ ∅ (.malloc (totalSize size)) (totalSize size) hi ha (hl hs).keeps
      (by simp)
    exact ⟨_, _, mmemAlloc_refused hi.unlocked hs ha,
      iff_of_true (serves_unchanged (hef.inv.unchanged rfl rfl)) (.inr rfl)⟩
  | some a =>
    have hdone := @mmemAlloc_done s a size file line ans hi.unlocked hs ha
    refine ⟨_, _, hdone, ?_⟩
    by_cases hn : size + 64 < 2 ^ 64
    · refine iff_of_true ?_ (.inl hn)
      obtain ⟨s', r, he, hef⟩ := @Inv.alloc _ _ size file line _ ∅ hi (fun hs => ⟨.inl hn, hl hs⟩)
        (by simp)
      obtain ⟨rfl, -⟩ := Prod.mk.inj (Option.some.inj (he.symm.trans hdone))
      have hinv := hef.inv
      rw [Heap.alloc, if_neg hs, ha] at hinv
      refine hinv.serves (b := ⟨a, size, file, line⟩)
        (List.mem_append_right _ (List.mem_singleton_self _)) ?_ hn
      simp only [realAlloc, ha, totalSize_eq hn, regions_install, List.getLast?_concat, Blk.region]
    · exact iff_of_false (not_serves hn) fun hc => hc.elim hn (by simp)

theorem Inv.calloc_serves_iff {counts itemSize : Nat} (hi : Inv s h) (file : Nat) (line : Int)
    (hl : (Request.calloc counts itemSize).Answered s h ans) :
    ∃ s' a, mmemCalloc s counts itemSize file line ans = some (s', a) ∧
      (Serves s s' h a (counts * itemSize) ↔
        counts * itemSize + 64 < 2 ^ 64 ∨ ans.addr = none) := by
  by_cases hs : counts = 0 ∨ itemSize = 0
  · have h₀ : counts * itemSize = 0 := by simpa using hs
    rw [h₀]
    exact ⟨s, NULL, mmemCalloc_zero hi.unlocked hs, iff_of_true (serves_null (by decide))
      (.inl (by decide))⟩
  obtain ⟨hlaw, hz⟩ := hl (fun he => hs (.inl he)) (fun he => hs (.inr he))
  cases ha : ans.addr with
  | none =>
    have hef := @Inv.refused _ _ _ ∅ (.calloc 1 (totalSize (counts * itemSize % 2 ^ 64)))
      (totalSize (counts * itemSize % 2 ^ 64)) hi ha hlaw.keeps (by simp)
    exact ⟨_, _, mmemCalloc_refused hi.unlocked hs ha,
      iff_of_true (serves_unchanged (hef.inv.unchanged rfl rfl)) (.inr rfl)⟩
  | some a =>
    have hdone := @mmemCalloc_done s a file line ans counts itemSize hi.unlocked hs ha
    refine ⟨_, _, hdone, ?_⟩
    by_cases hn : counts * itemSize + 64 < 2 ^ 64
    · refine iff_of_true ?_ (.inl hn)
      have hmod : counts * itemSize % 2 ^ 64 = counts * itemSize := Nat.mod_eq_of_lt (by omega)
      have hn' : counts * itemSize % 2 ^ 64 + 64 < 2 ^ 64 := by rwa [hmod]
      obtain ⟨s', r, he, hef⟩ := @Inv.calloc _ _ file line _ ∅ counts itemSize hi
        (fun _ _ => ⟨.inl hn', hlaw, hz⟩) (by simp)
      obtain ⟨rfl, -⟩ := Prod.mk.inj (Option.some.inj (he.symm.trans hdone))
      have hinv := hef.inv
      rw [Heap.calloc, if_neg hs, ha] at hinv
      refine (congrArg (Serves s _ h _) hmod).mp
        (hinv.serves (b := ⟨a, counts * itemSize % 2 ^ 64, file, line⟩)
          (List.mem_append_right _ (List.mem_singleton_self _)) ?_ hn')
      simp only [realAlloc, ha, totalSize_eq hn', regions_install, List.getLast?_concat, Blk.region]
    · exact iff_of_false (not_serves hn) fun hc => hc.elim hn (by simp)

/-- A live block that is not given back. -/
theorem Reach.resize_serves_iff (hr : Reach s h) (hb : b ∈ h.blocks) (file : Nat) (line : Int)
    (hl : size ≠ 0 → ans.Lawful s.list (otherRegions s.regions b.addr) (totalSize size) ∧
      ans.Copies b.region (totalSize size)) :
    ∃ s' a, mmemRealloc s b.data size file line ans = some (s', a) ∧
      (Serves s s' h a size ↔ size + 64 < 2 ^ 64 ∨ ¬ h.Intact b ∨
        ans.addr = none ∧ h.blocks.getLast? = some b) := by
  have hi := hr.inv
  by_cases hs : size = 0
  · subst hs
    have hfree : ∃ s', mmemFree s b.data ans.mem = some s' := by
      by_cases hint : h.Intact b
      · exact (hi.free_acts hb hint ans.mem).imp fun _ he => he.1
      · exact ⟨s, mmemFree_refused hi.unlocked (hi.find_touched hb hint)⟩
    obtain ⟨s', he⟩ := hfree
    refine ⟨s', NULL, by rw [mmemRealloc_zero hi.unlocked b.data_ne_null, he]; rfl, ?_⟩
    exact iff_of_true (serves_null (by decide)) (.inl (by decide))
  obtain ⟨hlaw, hcp⟩ := hl hs
  by_cases hint : h.Intact b
  · cases ha : ans.addr with
    | none =>
      obtain ⟨s', he, hlist, hi', htable⟩ := hr.realloc_fails hb hint hs file line ha hlaw hcp
      have hiff := hi.ring_iff_last hb hi' hlist
      have hready : s'.ready = true :=
        hi'.tracks.ready (List.mem_append_right _ (List.mem_singleton_self b))
      refine ⟨s', NULL, he, fun hserves => ?_, fun hc => ?_⟩
      · by_cases hn : size + 64 < 2 ^ 64
        · exact .inl hn
        · have hu := (hserves.refused (by unfold MMEM_BLOCK_SIZE; omega)).2.list
          rw [blockTableGet_eq hready] at hu
          exact .inr (.inr ⟨rfl, hiff.1 hu⟩)
      · rcases hc with hn | hn | ⟨-, hlast⟩
        · exact serves_null hn
        · exact absurd hint hn
        · refine serves_unchanged ⟨htable, ?_⟩
          rw [blockTableGet_eq hready]
          exact hiff.2 hlast
    | some a =>
      obtain ⟨l₁, l₂, hsplit, -⟩ := hi.split hb
      have hret := hi.retired hsplit
      have hg := hi.getBlock hb
      obtain ⟨t, hf, hlk, hready, -, hregions⟩ :=
        realRealloc_some (totalSize size) ans hret.tracks.mem_fst
      rw [← hg] at hf
      have hdone := @mmemRealloc_done s b.data size file line ans t hi.unlocked b.data_ne_null hs
        (hi.find_intact hb hint) hf (hlk.trans hret.locked) (hready.trans hret.ready) a ha
      refine ⟨_, _, hdone, ?_⟩
      by_cases hn : size + 64 < 2 ^ 64
      · refine iff_of_true ?_ (.inl hn)
        obtain ⟨s', he, hef⟩ := @Inv.realloc_done _ _ _ _ _ ∅ hi hb hint hs hlaw hcp (by simp)
          file line a ha hn
        obtain ⟨rfl, -⟩ := Prod.mk.inj (Option.some.inj (he.symm.trans hdone))
        refine hef.inv.serves (b := ⟨a, size, file, line⟩)
          (List.mem_append_right _ (List.mem_singleton_self _)) ?_ hn
        simp only [regions_install, hregions a ha, List.getLast?_concat, totalSize_eq hn, Blk.region]
      · refine iff_of_false (not_serves hn) fun hc => hc.elim hn fun hc => ?_
        exact hc.elim (fun hni => hni hint) (by simp)
  · refine ⟨s, NULL, mmemRealloc_refused hi.unlocked b.data_ne_null hs (hi.find_touched hb hint), ?_⟩
    exact iff_of_true (serves_unchanged (hi.unchanged rfl rfl)) (.inr (.inl hint))

/-- **A request is served** exactly when its sum fits, or when nothing is granted and the list keeps
its order. -/
theorem Reach.serves_iff (hr : Reach s h) (q : Request) (file : Nat) (line : Int)
    (hq : q.Answered s h ans) :
    ∃ s' a, q.run s file line ans = some (s', a) ∧ (Serves s s' h a q.exact ↔ q.Served h ans) := by
  cases q with
  | alloc size => exact hr.inv.alloc_serves_iff file line hq
  | calloc counts itemSize => exact hr.inv.calloc_serves_iff file line hq
  | realloc addr size =>
    simp only [Request.Answered] at hq
    simp only [Request.Served, Request.run, Request.exact]
    by_cases hn : addr = NULL
    · rw [if_pos hn] at hq
      simp only [if_pos hn]
      rw [hn, mmemRealloc_null hr.inv.unlocked]
      exact hr.inv.alloc_serves_iff file line hq
    · rw [if_neg hn] at hq
      obtain ⟨b, hb, rfl, hl⟩ := hq
      simp only [if_neg hn]
      obtain ⟨s', a, he, hiff⟩ := hr.resize_serves_iff hb file line hl
      refine ⟨s', a, he, hiff.trans (or_congr_right ⟨fun hc => ⟨b, hb, rfl, hc⟩, ?_⟩)⟩
      rintro ⟨b', hb', hd, hc⟩
      rwa [hr.inv.tracks.blk_layout.blk_addr_inj hb' hb (Nat.add_right_cancel hd)] at hc

def moved : Answer :=
  ⟨some 24576, fun m => ⟨fun x => if 24576 ≤ x then m (x - 24576 + 16384) else m x⟩⟩

theorem Reach.serves_iff_two : ∃ (s s' : State) (h : Heap) (a : Nat),
    h.blocks = [⟨8192, 10, 0, 1⟩, ⟨16384, 20, 0, 2⟩] ∧
    (Request.realloc (blockData 16384) 30).run s 0 3 moved = some (s', a) ∧ Serves s s' h a 30 := by
  obtain ⟨s, h, hr, hl, hb, -⟩ := reach_two
  have hregions : ∀ r ∈ s.regions, r = (8192, 74) ∨ r = (16384, 84) := fun r hmem => by
    have := hr.inv.tracks.regions.mem_iff.1 hmem
    rw [hb] at this
    simpa [Blk.region] using this
  have hmoved (m : Mem) {x : Nat} (hx : x < 24576) : moved.mem m x = m x := if_neg (by omega)
  have hbelow : ∀ m, ∀ x ∈ ownedBytes s.list s.regions, moved.mem m x = m x := by
    rintro m x (hx | ⟨r, hmem, hx⟩)
    · rw [hl] at hx
      exact hmoved m (by unfold InRegion at hx; omega)
    · rcases hregions r hmem with rfl | rfl
      · exact hmoved m (by unfold InRegion at hx; omega)
      · exact hmoved m (by unfold InRegion at hx; omega)
  have hq : (Request.realloc (blockData 16384) 30).Answered s h moved := by
    refine ⟨⟨16384, 20, 0, 2⟩, by simp [hb], rfl, fun _ =>
      ⟨⟨fun m x hx => hbelow m x (ownedBytes_mono (List.filter_subset_self _) hx), fun a ha => ?_⟩,
        fun a ha => ?_, fun hnone => absurd hnone (Option.some_ne_none _)⟩⟩
    · obtain rfl : 24576 = a := Option.some.inj ha
      refine ⟨by decide, by decide, by rw [hl]; decide, fun r hmem => ?_⟩
      rcases hregions r (List.filter_subset_self _ hmem) with rfl | rfl <;> decide
    · obtain rfl : 24576 = a := Option.some.inj ha
      intro m i _
      have hcopy : moved.mem m (24576 + i) = m (24576 + i - 24576 + 16384) :=
        if_pos (Nat.le_add_right _ _)
      rw [hcopy, Nat.add_sub_cancel_left, Nat.add_comm]
      rfl
  obtain ⟨s', a, he, hiff⟩ := hr.serves_iff (.realloc (blockData 16384) 30) 0 3 hq
  exact ⟨s, s', h, a, hb, he, hiff.2 (.inl (by decide))⟩

/-- The underlying `calloc` clears the 64 bytes at 8192. -/
def clear64 : Answer :=
  ⟨some 8192, fun m => ⟨fun x => if 8192 ≤ x ∧ x < 8192 + 64 then 0 else m x⟩⟩

/-- `2^32` items of `2^32` bytes: 64 bytes are asked of the underlying allocator, and the caller gets
an address. -/
theorem calloc_wraps : clear64.Lawful 4096 [] 64 ∧ clear64.Zeroed 64 ∧
    ∃ s, mmemCalloc (initState 4096 ⟨fun _ => 0⟩) (2 ^ 32) (2 ^ 32) 0 0 clear64 =
      some (s, blockData 8192) ∧ s.calls = [.calloc 1 64] ∧ s.regions = [(8192, 64)] ∧
      64 < MMEM_BLOCK_SIZE + 2 ^ 32 * 2 ^ 32 + 8 := by
  refine ⟨⟨fun m x hx => ?_, (firstAlloc_lawful (by decide)).fresh⟩, fun a ha m i hi => ?_, _,
    mmemCalloc_done rfl (by decide) rfl, ?_, ?_, by decide⟩
  · rcases hx with hx | ⟨r, hr, -⟩
    · refine if_neg fun hx' => ?_
      have : x < 4096 + 16 := hx.2
      omega
    · exact absurd hr List.not_mem_nil
  · obtain rfl : a = 8192 := (Option.some.inj ha).symm
    exact if_pos ⟨by omega, by omega⟩
  · simp only [calls_install]
    decide
  · simp only [regions_install]
    decide

end FwkMlib.Mmem
