import FwkMlib.Mmem.Steps

/-!
# Runs

The states of a client's run with the heap it sees, over every answer of the underlying allocator.

* `Reach` : the reachable states, each with its heap; `Reach.inv` : the state carries the heap;
* `Reach.consistent` : the list, the counters and the header fields are those of the live blocks,
  and no allowed call crashes.
-/

namespace FwkMlib.Mmem
open FwkMlib.Lib FwkMlib.Mlist

def initState (list : Nat) (m : Mem) : State where
  mem := m
  list := list
  table := ⟨0, 0, 0, 0, 0⟩
  ready := false
  locked := false
  regions := []
  calls := []

def initHeap (m : Mem) : Heap := ⟨[], [], m⟩

/-- The reachable states and what the clients see there. -/
inductive Reach : State → Heap → Prop
  | init (list : Nat) (m : Mem) (hl : list + 16 ≤ 2 ^ 64) : Reach (initState list m) (initHeap m)
  | step {s s' : State} {h : Heap} {c : Call} (hr : Reach s h) (ok : Allowed s h c)
      (he : exec s c = some s') : Reach s' (h.step c s'.mem)

variable {s s' : State} {h : Heap} {b : Blk} {c : Call}

theorem init_inv {list : Nat} (m : Mem) (hl : list + 16 ≤ 2 ^ 64) :
    Inv (initState list m) (initHeap m) where
  tracks := by
    refine ⟨List.Perm.refl _, Layout.nil hl, fun hr => ?_, fun _ => rfl, fun b hb => ?_, rfl, rfl,
      rfl⟩
    · exact absurd hr Bool.false_ne_true
    · exact absurd hb List.not_mem_nil
  view := fun b hb => absurd hb List.not_mem_nil
  unlocked := rfl

theorem Inv.next (hi : Inv s h) (ok : Allowed s h c) (he : exec s c = some s') :
    Inv s' (h.step c s'.mem) :=
  (hi.effect ok c.keeps_empty he).inv

theorem Reach.inv (hr : Reach s h) : Inv s h := by
  induction hr with
  | init list m hl => exact init_inv m hl
  | step hr ok he ih => exact ih.next ok he

/-- A first request of a run, granted at 8192. -/
def firstAlloc (size : Nat) (line : Int) : Option (State × Nat) :=
  mmemAlloc (initState 4096 ⟨fun _ => 0⟩) size 0 line ⟨some 8192, id⟩

theorem firstAlloc_lawful {n : Nat} (hn : 8192 + n ≤ 2 ^ 64) :
    (⟨some 8192, id⟩ : Answer).Lawful 4096 [] n := by
  refine ⟨fun _ _ _ => rfl, fun a ha => ?_⟩
  obtain rfl : a = 8192 := (Option.some.inj ha).symm
  exact ⟨(by decide : 0 < 8192), hn, .inl (by decide : 4096 + 16 ≤ 8192),
    fun r hr => absurd hr List.not_mem_nil⟩

/-! ## The table -/

/-- The table is that of the blocks `bs`: they are linked in its list, each outstanding region is
one of them, and the counters are theirs. -/
structure Consistent (s : State) (bs : List Blk) : Prop where
  ring : Ring (Linked (blockTableGet s).mem) (s.list :: bs.map Blk.node)
  regions : s.regions.Perm (bs.map Blk.region)
  count : s.table.count = bs.length
  activeSize : s.table.activeSize = (bs.map Blk.size).sum % 2 ^ 64
  totalSize : s.table.totalSize = (bs.map fun b => blockTotalSize s.mem b.addr).sum % 2 ^ 64
  size : ∀ b ∈ bs, blockSize s.mem b.addr = b.size
  total : ∀ b ∈ bs, blockTotalSize s.mem b.addr = MMEM_BLOCK_SIZE + b.size + 8

theorem Tracks.length_lt {bs : List Blk} {spare : List (Nat × Nat)} (ht : Tracks s bs spare) :
    bs.length < 2 ^ 64 := by
  have hl := ht.blk_layout
  have hn : (bs.map Blk.addr).Nodup := by
    refine List.pairwise_map.2 ((List.pairwise_map.1 hl.apart).imp fun {b b'} hab he => ?_)
    unfold Apart Blk.region at hab
    omega
  have hsub : bs.map Blk.addr ⊆ List.range (2 ^ 64 - 63) := by
    intro a ha
    obtain ⟨b, hb, rfl⟩ := List.mem_map.1 ha
    have hbd : b.addr + (b.size + 64) ≤ 2 ^ 64 := hl.bound _ (List.mem_map_of_mem hb)
    rw [List.mem_range]
    omega
  have hlen := (List.subperm_of_subset hn hsub).length_le
  rw [List.length_map, List.length_range] at hlen
  omega

theorem Inv.tableConsistent (hi : Inv s h) : Consistent s h.blocks := by
  have ht := hi.tracks
  have htotal : ∀ b ∈ h.blocks, blockTotalSize s.mem b.addr = b.size + 64 := fun b hb =>
    (ht.header b hb).totalSize
  refine ⟨?_, by simpa using ht.regions, ?_, ht.activeSize, ?_, fun b hb => (ht.header b hb).size,
    fun b hb => ?_⟩
  · obtain ⟨h₁, hr₁, -⟩ := ht.blockTableGet
    have := h₁.ring hr₁
    rwa [list_blockTableGet] at this
  · rw [ht.count, Nat.mod_eq_of_lt ht.length_lt]
  · rw [ht.totalSize]
    refine congrArg (fun l : List Nat => l.sum % 2 ^ 64) (List.map_congr_left fun b hb => ?_)
    exact (htotal b hb).symm
  · rw [htotal b hb, MMEM_BLOCK_SIZE]
    omega

/-- **The table is consistent** in every reachable state, and no call of a client that keeps to its
own blocks crashes: no address goes to the underlying allocator that is not outstanding there. -/
theorem Reach.consistent (hr : Reach s h) :
    Consistent s h.blocks ∧ ∀ c, Allowed s h c → ∃ s', exec s c = some s' :=
  ⟨hr.inv.tableConsistent, fun c ok => (hr.inv.step ok c.keeps_empty).imp fun _ he => he.1⟩

theorem allowed_alloc : Allowed (initState 4096 ⟨fun _ => 0⟩) (initHeap ⟨fun _ => 0⟩)
    (.alloc 10 0 0 ⟨some 8192, id⟩) :=
  fun _ => ⟨.inl (by decide), firstAlloc_lawful (by decide)⟩

/-- A request that fits may be granted apart from the list's node and the live blocks. -/
theorem Inv.allowed_alloc {a size : Nat} (hi : Inv s h) (file : Nat) (line : Int) (ha : 0 < a)
    (hbound : a + (size + 64) < 2 ^ 64) (hl : Apart (s.list, 16) (a, size + 64))
    (hap : ∀ b ∈ h.blocks, Apart (a, size + 64) b.region) :
    Allowed s h (.alloc size file line ⟨some a, id⟩) := by
  refine fun _ => ⟨.inl (by omega), fun _ _ _ => rfl, fun a' ha' => ?_⟩
  obtain rfl : a = a' := Option.some.inj ha'
  rw [totalSize_eq (by omega)]
  refine ⟨ha, hbound.le, hl, fun r hr => ?_⟩
  have hmem := hi.tracks.regions.mem_iff.1 hr
  rw [List.append_nil] at hmem
  obtain ⟨b, hb, rfl⟩ := List.mem_map.1 hmem
  exact hap b hb

theorem Heap.not_intact_write (h : Heap) (b : Blk) : ¬ (h.write b.tail 0).Intact b := by
  intro hint
  have := congrArg (·[0]?) hint.2
  simp [Heap.write, readBytes, writeBytes, bytesLE, MMEM_BLOCK_ACTIVE_TAIL_MAGIC] at this

/-- Two blocks; the client has written over the guard of the first one. -/
theorem reach_two : ∃ (s : State) (h : Heap), Reach s h ∧ s.list = 4096 ∧
    h.blocks = [⟨8192, 10, 0, 1⟩, ⟨16384, 20, 0, 2⟩] ∧ ¬ h.Intact ⟨8192, 10, 0, 1⟩ ∧
    h.Intact ⟨16384, 20, 0, 2⟩ := by
  have hr₀ : Reach (initState 4096 ⟨fun _ => 0⟩) (initHeap ⟨fun _ => 0⟩) := .init 4096 _ (by decide)
  have ok₀ : Allowed (initState 4096 ⟨fun _ => 0⟩) (initHeap ⟨fun _ => 0⟩)
      (.alloc 10 0 1 ⟨some 8192, id⟩) :=
    hr₀.inv.allowed_alloc 0 1 (by decide) (by decide) (by decide) (by decide)
  obtain ⟨s₁, he₁, hef₁⟩ := hr₀.inv.step ok₀ (Call.keeps_empty _)
  have hr₁ := hr₀.step ok₀ he₁
  have hl₁ : s₁.list = 4096 := hef₁.list
  have ok₁ : Allowed s₁ ((initHeap ⟨fun _ => 0⟩).step (.alloc 10 0 1 ⟨some 8192, id⟩) s₁.mem)
      (.alloc 20 0 2 ⟨some 16384, id⟩) := by
    refine hr₁.inv.allowed_alloc 0 2 (by decide) (by decide) (by rw [hl₁]; decide) fun b hb => ?_
    obtain rfl : b = ⟨8192, 10, 0, 1⟩ := List.mem_singleton.1 hb
    decide
  obtain ⟨s₂, he₂, hef₂⟩ := hr₁.inv.step ok₁ (Call.keeps_empty _)
  have hr₂ := hr₁.step ok₁ he₂
  let h₂ := ((initHeap ⟨fun _ => 0⟩).step (.alloc 10 0 1 ⟨some 8192, id⟩) s₁.mem).step
    (.alloc 20 0 2 ⟨some 16384, id⟩) s₂.mem
  have hblocks : h₂.blocks = [⟨8192, 10, 0, 1⟩, ⟨16384, 20, 0, 2⟩] := rfl
  have ok₂ : Allowed s₂ h₂ (.write 8258 0) := by
    refine ⟨⟨8192, 10, 0, 1⟩, List.mem_cons_self, magicBytes_subset (.inr ?_)⟩
    show 8258 ≤ 8258 ∧ 8258 < 8258 + 8
    decide
  refine ⟨_, _, hr₂.step ok₂ rfl, hef₂.list.trans hl₁, hblocks,
    h₂.not_intact_write ⟨8192, 10, 0, 1⟩, ?_⟩
  have hint := Heap.intact_place
    ((initHeap ⟨fun _ => 0⟩).step (.alloc 10 0 1 ⟨some 8192, id⟩) s₁.mem) ⟨16384, 20, 0, 2⟩ s₂.mem
  exact ⟨(readBytes_writeBytes_of_disjoint (.inr (by decide))).trans hint.1,
    (readBytes_writeBytes_of_disjoint (.inr (by decide))).trans hint.2⟩

theorem Reach.consistent_two : ∃ (s : State) (h : Heap), Consistent s h.blocks ∧
    h.blocks = [⟨8192, 10, 0, 1⟩, ⟨16384, 20, 0, 2⟩] ∧ ¬ h.Intact ⟨8192, 10, 0, 1⟩ := by
  obtain ⟨s, h, hr, -, hb, hbad, -⟩ := reach_two
  exact ⟨s, h, hr.consistent.1, hb, hbad⟩

end FwkMlib.Mmem
