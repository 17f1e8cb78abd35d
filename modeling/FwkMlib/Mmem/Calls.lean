import FwkMlib.Mmem.Heap

/-!
# One call

What each operation computes, path by path, and the parts its paths are made of.

* `mmemAlloc_done`, `mmemFree_done`, `mmemRealloc_done` and their siblings : the paths of the
  operations;
* `Placed`, `Retired` : what a block entering or leaving the table leaves behind;
* `Inv.check` : the guard check decides whether the magics were touched;
* `freeAllLoop_spec` : the loop of `mmem_free_all`.
-/

namespace FwkMlib.Mmem
open FwkMlib.Lib FwkMlib.Mlist

variable {s s' : State} {h : Heap} {bs l₁ l₂ : List Blk} {b : Blk} {a size file : Nat} {line : Int}
  {ans : Answer} {m : Mem} {spare : List (Nat × Nat)} {K : Set Nat}

theorem Tracks.setLocked (ht : Tracks s bs spare) (l : Bool) :
    Tracks { s with locked := l } bs spare :=
  ⟨ht.regions, ht.layout, ht.ring, ht.fresh, ht.header, ht.count, ht.totalSize, ht.activeSize⟩

theorem lock_eq (hu : s.locked = false) : lock s = some { s with locked := true } := by
  rw [lock, hu]
  rfl

theorem unlock_eq (hu : s.locked = true) : unlock s = some { s with locked := false } := by
  rw [unlock, hu]
  rfl

theorem relock (hu : s.locked = false) : { s with locked := false } = s := by
  rw [← hu]

theorem totalSize_eq {n : Nat} (hn : n + 64 < 2 ^ 64) : totalSize n = n + 64 := by
  unfold totalSize MMEM_BLOCK_SIZE
  omega

/-! ## Blocks given out -/

/-- From `s`, with its memory as the underlying allocator left it, the block `b` has entered the
table behind `bs`. -/
structure Placed (s s' : State) (bs : List Blk) (b : Blk) (m : Mem) : Prop where
  tracks : Tracks s' (bs ++ [b]) []
  unlocked : s'.locked = false
  list : s'.list = s.list
  maxTotalSize : s'.table.maxTotalSize = max s.table.maxTotalSize s'.table.totalSize
  maxActiveSize : s'.table.maxActiveSize = max s.table.maxActiveSize s'.table.activeSize
  mem : ∀ x, x ∉ tableBytes s'.list (bs ++ [b]) → s'.mem x = activeMem m b x

theorem Placed.unlock {t : State} (h₁ : Tracks t (bs ++ [b]) []) (hl : t.list = s.list)
    (ht : t.table.maxTotalSize = max s.table.maxTotalSize t.table.totalSize)
    (ha : t.table.maxActiveSize = max s.table.maxActiveSize t.table.activeSize)
    (hm : ∀ x, x ∉ tableBytes s.list (bs ++ [b]) → t.mem x = activeMem m b x) :
    Placed s { t with locked := false } bs b m :=
  ⟨h₁.setLocked false, rfl, hl, ht, ha, fun x hx => hm x (hl ▸ hx)⟩

theorem placed_activate (ht : Tracks s bs [b.region]) (hh : Header s.mem b) :
    Placed s { activate s b.addr with locked := false } bs b s.mem :=
  Placed.unlock (ht.activate hh).1 (list_activate ..) (maxTotalSize_activate ..)
    (maxActiveSize_activate ..) (ht.activate hh).2

theorem placed_install (ht : Tracks s bs [b.region]) :
    Placed s { install s b.addr b.size (b.size + 64) b.file b.line with locked := false } bs b
      s.mem :=
  Placed.unlock ht.install.1 (list_install ..) (maxTotalSize_activate ..)
    (maxActiveSize_activate ..) ht.install.2

theorem mmemAlloc_zero (hu : s.locked = false) :
    mmemAlloc s 0 file line ans = some (s, NULL) := by
  simp [mmemAlloc, lock_eq hu, unlock_eq, relock hu]

theorem mmemAlloc_refused (hu : s.locked = false) (hs : size ≠ 0) (ha : ans.addr = none) :
    mmemAlloc s size file line ans =
      some (realAlloc s (.malloc (totalSize size)) (totalSize size) ans, NULL) := by
  simp [mmemAlloc, lock_eq hu, unlock_eq, hs, ha, realAlloc, hu]

theorem mmemAlloc_done (hu : s.locked = false) (hs : size ≠ 0) (ha : ans.addr = some a) :
    mmemAlloc s size file line ans =
      some ({ install (realAlloc { s with locked := true } (.malloc (totalSize size))
        (totalSize size) ans) a size (totalSize size) file line with locked := false },
        blockData a) := by
  simp [mmemAlloc, lock_eq hu, unlock, hs, ha, install, activate, blockAdd, realAlloc]

theorem mmemCalloc_zero {counts itemSize : Nat} (hu : s.locked = false)
    (hs : counts = 0 ∨ itemSize = 0) :
    mmemCalloc s counts itemSize file line ans = some (s, NULL) := by
  simp [mmemCalloc, lock_eq hu, unlock_eq, relock hu, hs]

theorem mmemCalloc_refused {counts itemSize : Nat} (hu : s.locked = false)
    (hs : ¬ (counts = 0 ∨ itemSize = 0)) (ha : ans.addr = none) :
    mmemCalloc s counts itemSize file line ans =
      some (realAlloc s (.calloc 1 (totalSize (counts * itemSize % 2 ^ 64)))
        (totalSize (counts * itemSize % 2 ^ 64)) ans, NULL) := by
  simp [mmemCalloc, lock_eq hu, unlock_eq, hs, ha, realAlloc, hu]

theorem mmemCalloc_done {counts itemSize : Nat} (hu : s.locked = false)
    (hs : ¬ (counts = 0 ∨ itemSize = 0)) (ha : ans.addr = some a) :
    mmemCalloc s counts itemSize file line ans =
      some ({ install (realAlloc { s with locked := true }
        (.calloc 1 (totalSize (counts * itemSize % 2 ^ 64)))
        (totalSize (counts * itemSize % 2 ^ 64)) ans) a (counts * itemSize % 2 ^ 64)
        (totalSize (counts * itemSize % 2 ^ 64)) file line with locked := false },
        blockData a) := by
  simp [mmemCalloc, lock_eq hu, unlock, hs, ha, install, activate, blockAdd, realAlloc]

/-- A block's bytes apart from its magics, as far as clients see them, are its data. -/
theorem data_of_clientBytes {x : Nat} (hx : x ∈ clientBytes b) (hm : x ∉ magicBytes b) :
    b.data ≤ x ∧ x < b.tail := by
  simp only [clientBytes, Set.mem_ofPred_eq, InRegion, Blk.region, Blk.data, blockData,
    MMEM_BLOCK_SIZE] at hx
  simp only [magicBytes, Set.mem_union, mem_bytesAt, Blk.tail, Blk.data, blockData,
    MMEM_BLOCK_SIZE] at hm ⊢
  omega

theorem Placed.not_inRegion {b' : Blk} {x : Nat} (hp : Placed s s' bs b m) (hb : b' ∈ bs)
    (hx : InRegion b'.region x) : ¬ InRegion b.region x := by
  have ha := hp.tracks.blk_layout.apart
  rw [List.map_append, List.pairwise_append] at ha
  exact (ha.2.2 _ (List.mem_map_of_mem hb) b.region (by simp)).not_inRegion hx

theorem Placed.view {v : Mem} (hp : Placed s s' bs b m)
    (hold : ∀ b' ∈ bs, ∀ x ∈ clientBytes b', activeMem m b x = v x)
    (hnew : ∀ x ∈ clientBytes b, activeMem m b x = v x) :
    ∀ b' ∈ bs ++ [b], ∀ x ∈ clientBytes b', s'.mem x = v x := by
  intro b' hb' x hx
  rw [hp.mem x (hp.tracks.blk_layout.not_tableBytes hb' hx)]
  rcases List.mem_append.1 hb' with hb' | hb'
  · exact hold b' hb' x hx
  · rw [List.mem_singleton.1 hb'] at hx
    exact hnew x hx

theorem Inv.place {bytes : Nat → UInt8} (hp : Placed s s' h.blocks b m)
    (hold : ∀ b' ∈ h.blocks, ∀ x ∈ clientBytes b', m x = h.view x)
    (hnew : ∀ x, b.data ≤ x → x < b.tail → m x = bytes x) : Inv s' (h.place b bytes) := by
  refine ⟨hp.tracks, hp.view (fun b' hb' x hx => ?_) (fun x hx => ?_), hp.unlocked⟩
  · refine activeMem_congr fun _ => ?_
    have hx' := hp.not_inRegion hb' hx.1
    rw [hold b' hb' x hx]
    refine (if_neg fun hd => hx' ?_).symm
    unfold InRegion Blk.region
    unfold Blk.data Blk.tail Blk.data blockData MMEM_BLOCK_SIZE at hd
    omega
  · refine activeMem_congr fun hm => ?_
    have hd := data_of_clientBytes hx hm
    rw [hnew x hd.1 hd.2]
    exact (if_pos hd).symm

/-- The heap with a block put back behind the others as it was. -/
theorem Inv.putBack {h' : Heap} (hp : Placed s s' bs b m) (hbs : h'.blocks = bs ++ [b])
    (hold : ∀ b' ∈ bs, ∀ x ∈ clientBytes b', m x = h'.view x) (hi : h'.Intact b)
    (hnew : ∀ x, b.data ≤ x → x < b.tail → m x = h'.view x) : Inv s' h' := by
  refine ⟨hbs ▸ hp.tracks, hbs ▸ hp.view (fun b' hb' x hx => ?_) (fun x hx => ?_), hp.unlocked⟩
  · rw [activeMem_of_not, hold b' hb' x hx]
    exact fun hm => hp.not_inRegion hb' hx.1 (magicBytes_subset hm).1
  · by_cases hm : x ∈ magicBytes b
    · rcases hm with hm | hm
      · exact byte_eq_of_readBytes ((readBytes_activeMem_head m b).trans hi.1.symm) hm.1 hm.2
      · exact byte_eq_of_readBytes ((readBytes_activeMem_tail m b).trans hi.2.symm) hm.1 hm.2
    · have hd := data_of_clientBytes hx hm
      rw [activeMem_of_not m hm, hnew x hd.1 hd.2]

theorem mem_clientBytes_of_data {x : Nat} (hx : b.data ≤ x) (hx' : x < b.tail) :
    x ∈ clientBytes b ∧ x ∉ magicBytes b := by
  simp only [clientBytes, Set.mem_ofPred_eq, InRegion, Blk.region, magicBytes, Set.mem_union,
    mem_bytesAt]
  unfold Blk.tail at hx' ⊢
  unfold Blk.data blockData MMEM_BLOCK_SIZE at *
  omega

/-- The data of a placed block are the bytes the underlying allocator left there. -/
theorem Placed.data {x : Nat} (hp : Placed s s' bs b m) (hx : b.data ≤ x) (hx' : x < b.tail) :
    s'.mem x = m x := by
  obtain ⟨hc, hm⟩ := mem_clientBytes_of_data hx hx'
  have hb : b ∈ bs ++ [b] := List.mem_append_right bs (List.mem_singleton_self b)
  rw [hp.mem x (hp.tracks.blk_layout.not_tableBytes hb hc), activeMem_of_not m hm]

/-! ## The guard check -/

theorem Inv.bounds (hi : Inv s h) (hb : b ∈ h.blocks) :
    0 < b.addr ∧ b.addr + (b.size + 64) ≤ 2 ^ 64 :=
  ⟨hi.tracks.layout.pos _ (hi.tracks.mem_regions hb),
    hi.tracks.layout.bound _ (hi.tracks.mem_regions hb)⟩

theorem Inv.getBlock (hi : Inv s h) (hb : b ∈ h.blocks) : getBlock b.data = b.addr := by
  have := hi.bounds hb
  unfold Mmem.getBlock Blk.data blockData MMEM_BLOCK_SIZE
  omega

theorem Inv.readBytes_view (hi : Inv s h) (hb : b ∈ h.blocks) {n : Nat}
    (hn : ∀ i < n, a + i ∈ clientBytes b) : readBytes s.mem a n = readBytes h.view a n :=
  readBytes_congr fun i hin => hi.view b hb _ (hn i hin)

theorem Tracks.blockTail (ht : Tracks s bs spare) (hb : b ∈ bs) :
    blockTail s.mem b.addr = b.tail := by
  have hbd : b.addr + (b.size + 64) ≤ 2 ^ 64 := ht.layout.bound _ (ht.mem_regions hb)
  unfold Mmem.blockTail
  rw [(ht.header b hb).size]
  unfold Blk.tail Blk.data blockData MMEM_BLOCK_SIZE
  omega

/-- **The guard check is exact** on a live block. -/
theorem Inv.check (hi : Inv s h) (hb : b ∈ h.blocks) :
    checkBlockMagicActive s.mem b.addr = 0 ↔ h.Intact b := by
  have htail := hi.tracks.blockTail hb
  have hhead := hi.readBytes_view (a := b.addr) (n := 8) hb fun i hin =>
    magicBytes_subset (.inl ⟨by omega, by omega⟩)
  have hguard := hi.readBytes_view (a := b.tail) (n := 8) hb fun i hin =>
    magicBytes_subset (.inr ⟨by omega, by omega⟩)
  have h₁ : blockMagic s.mem b.addr = MMEM_BLOCK_ACTIVE_HEAD_MAGIC ↔
      Lib.readBytes h.view b.addr 8 = bytesLE 8 MMEM_BLOCK_ACTIVE_HEAD_MAGIC := by
    rw [← hhead]
    exact read64_eq_iff (by decide)
  have h₂ : blockTailMagic s.mem b.addr = MMEM_BLOCK_ACTIVE_TAIL_MAGIC ↔
      Lib.readBytes h.view b.tail 8 = bytesLE 8 MMEM_BLOCK_ACTIVE_TAIL_MAGIC := by
    unfold blockTailMagic
    rw [← hguard, htail]
    exact read64_eq_iff (by decide)
  unfold checkBlockMagicActive Heap.Intact
  rw [← h₁, ← h₂]
  split_ifs with hc
  · exact iff_of_false (by decide) fun hab => hc.elim (fun hn => hn hab.1) fun hn => hn hab.2
  · exact iff_of_true rfl ⟨not_not.1 fun hn => hc (.inl hn), not_not.1 fun hn => hc (.inr hn)⟩

theorem Inv.find (hi : Inv s h) (hb : b ∈ h.blocks) : h.find b.data = some b := by
  cases hf : h.find b.data with
  | none => exact absurd (List.find?_eq_none.1 hf b hb) (by simp)
  | some b' =>
    have hb' := List.mem_of_find?_eq_some hf
    have hd : b'.data = b.data := by simpa using List.find?_some hf
    exact congrArg some (hi.tracks.blk_layout.blk_addr_inj hb' hb (Nat.add_right_cancel hd))

theorem Heap.find_null (h : Heap) : h.find NULL = none := by
  refine List.find?_eq_none.2 fun b _ => ?_
  simp [Blk.data, blockData, MMEM_BLOCK_SIZE, NULL]

/-! ## `mmem_free` -/

theorem mmemFree_null {f : Mem → Mem} (hu : s.locked = false) : mmemFree s NULL f = some s := by
  simp [mmemFree, lock_eq hu, unlock_eq, relock hu]

theorem mmemFree_refused {f : Mem → Mem} (hu : s.locked = false)
    (hc : checkBlockMagicActive s.mem (getBlock a) ≠ 0) : mmemFree s a f = some s := by
  simp [mmemFree, lock_eq hu, unlock_eq, relock hu, hc]

theorem mmemFree_done {f : Mem → Mem} (hu : s.locked = false) (hn : a ≠ NULL)
    (hc : checkBlockMagicActive s.mem (getBlock a) = 0) {t : State}
    (hf : realFree (retire { s with locked := true } (getBlock a)) (getBlock a) f = some t)
    (hl : t.locked = true) : mmemFree s a f = some { t with locked := false } := by
  unfold retire at hf
  simp only at hf
  simp [mmemFree, lock_eq hu, hn, hc, hf, unlock_eq hl]

theorem Tracks.nodup (ht : Tracks s bs spare) : bs.Nodup := by
  have hp : bs.Pairwise fun b b' => Apart b.region b'.region :=
    List.pairwise_map.1 ht.blk_layout.apart
  refine hp.imp fun {b b'} hab he => ?_
  rw [he] at hab
  unfold Apart Blk.region at hab
  omega

theorem Inv.split (hi : Inv s h) (hb : b ∈ h.blocks) :
    ∃ l₁ l₂, h.blocks = l₁ ++ b :: l₂ ∧ h.blocks.erase b = l₁ ++ l₂ := by
  obtain ⟨l₁, l₂, he⟩ := List.append_of_mem hb
  have hn := hi.tracks.nodup
  rw [he, List.nodup_middle, List.nodup_cons] at hn
  refine ⟨l₁, l₂, he, ?_⟩
  rw [he, List.erase_append_right _ fun hm => hn.1 (List.mem_append_left l₂ hm),
    List.erase_cons_head]

/-- What a releasing operation has done when the underlying allocator is called: the block is out of
the table, its head magic is that of a released block, what the clients see is as it was. -/
structure Retired (s t : State) (h : Heap) (bs : List Blk) (b : Blk) : Prop where
  tracks : Tracks t bs [b.region]
  header : Header t.mem b
  others : ∀ b' ∈ bs, ∀ x ∈ clientBytes b', t.mem x = h.view x
  data : ∀ x, b.data ≤ x → x < b.tail → t.mem x = h.view x
  head : readBytes t.mem b.addr 8 = bytesLE 8 MMEM_BLOCK_FREE_HEAD_MAGIC
  kept : ∀ x, x ∉ ownedBytes s.list (h.blocks.map Blk.region) → t.mem x = s.mem x
  ready : t.ready = true
  locked : t.locked = true
  list : t.list = s.list
  regions : t.regions = s.regions
  calls : t.calls = s.calls
  maxTotalSize : t.table.maxTotalSize = s.table.maxTotalSize
  maxActiveSize : t.table.maxActiveSize = s.table.maxActiveSize

theorem Inv.retired (hi : Inv s h) (hb : h.blocks = l₁ ++ b :: l₂) :
    Retired s (retire { s with locked := true } b.addr) h (l₁ ++ l₂) b := by
  have ht : Tracks { s with locked := true } (l₁ ++ b :: l₂) [] := hb ▸ hi.tracks.setLocked true
  obtain ⟨h₁, h₂, h₃⟩ := ht.retire
  have hmem : b ∈ l₁ ++ b :: l₂ := List.mem_append_right l₁ List.mem_cons_self
  have hin : ∀ {b'}, b' ∈ l₁ ++ l₂ → b' ∈ l₁ ++ b :: l₂ := by
    intro b' hb'
    simp only [List.mem_append, List.mem_cons] at hb' ⊢
    exact hb'.imp_right .inr
  have hold : ∀ b' ∈ l₁ ++ b :: l₂, ∀ x ∈ clientBytes b', x ∉ magicBytes b →
      (retire { s with locked := true } b.addr).mem x = h.view x := by
    intro b' hb' x hx hm
    rw [h₃ x (ht.blk_layout.not_tableBytes hb' hx), freeMem_of_not _ hm]
    exact hi.view b' (hb ▸ hb') x hx
  refine ⟨h₁, h₂, fun b' hb' x hx => hold b' (hin hb') x hx fun hm => ?_, fun x hx hx' => ?_, ?_,
    fun x hx => ?_, ready_retire _ _, locked_retire _ _, list_retire _ _, regions_retire _ _,
    calls_retire _ _, maxTotalSize_retire _ _, maxActiveSize_retire _ _⟩
  · have ha := (List.pairwise_append.1 h₁.all_layout.apart).2.2 _ (List.mem_map_of_mem hb')
      b.region (List.mem_singleton_self _)
    exact ha.not_inRegion hx.1 (magicBytes_subset hm).1
  · obtain ⟨hc, hm⟩ := mem_clientBytes_of_data hx hx'
    exact hold b hmem x hc hm
  · rw [← readBytes_freeMem_head s.mem b]
    refine readBytes_congr fun i hi => h₃ _ (ht.blk_layout.not_tableBytes hmem ?_)
    exact magicBytes_subset (.inl ⟨by omega, by omega⟩)
  · rw [hb] at hx
    rw [h₃ x fun ht => hx (tableBytes_subset ht)]
    refine freeMem_of_not _ fun hm => hx (.inr ⟨b.region, List.mem_map_of_mem hmem, ?_⟩)
    exact (magicBytes_subset hm).1

/-! ## `mmem_realloc` -/

theorem mmemRealloc_null (hu : s.locked = false) :
    mmemRealloc s NULL size file line ans = mmemAlloc s size file line ans := by
  simp [mmemRealloc, lock_eq hu, unlock_eq, relock hu]

theorem mmemRealloc_zero (hu : s.locked = false) (hn : a ≠ NULL) :
    mmemRealloc s a 0 file line ans = (mmemFree s a ans.mem).map fun s => (s, NULL) := by
  simp only [mmemRealloc, lock_eq hu, unlock_eq, relock hu, hn, if_false, if_true,
    Option.bind_eq_bind, Option.bind_some]
  cases mmemFree s a ans.mem <;> rfl

theorem mmemRealloc_refused (hu : s.locked = false) (hn : a ≠ NULL) (hs : size ≠ 0)
    (hc : checkBlockMagicActive s.mem (getBlock a) ≠ 0) :
    mmemRealloc s a size file line ans = some (s, NULL) := by
  simp [mmemRealloc, lock_eq hu, unlock_eq, relock hu, hn, hs, hc]

/-- With the table set up, a block enters it in three stores. -/
theorem activate_eq (hr : s.ready = true) :
    activate s a = blockAdd { s with
      mem := mlistInit (setBlockMagicActive s.mem a) (blockNode a) } a := by
  unfold activate
  simp only
  rw [blockTableGet_eq]
  exact hr

section resize

variable {t : State} (hu : s.locked = false) (hn : a ≠ NULL) (hs : size ≠ 0)
  (hc : checkBlockMagicActive s.mem (getBlock a) = 0)
  (hf : realRealloc (retire { s with locked := true } (getBlock a)) (getBlock a)
    (totalSize size) ans = some t) (hl : t.locked = true) (hr : t.ready = true)

include hu hn hs hc hf hl hr

theorem mmemRealloc_failed (ha : ans.addr = none) :
    mmemRealloc s a size file line ans =
      some ({ activate t (getBlock a) with locked := false }, NULL) := by
  unfold retire at hf
  simp only at hf
  simp [mmemRealloc, lock_eq hu, hn, hs, hc, hf, ha, unlock, activate_eq hr, blockAdd, hl]

theorem mmemRealloc_done {a' : Nat} (ha : ans.addr = some a') :
    mmemRealloc s a size file line ans =
      some ({ install t a' size (totalSize size) file line with locked := false },
        blockData a') := by
  unfold retire at hf
  simp only at hf
  rw [install, activate_eq]
  · simp [mmemRealloc, lock_eq hu, hn, hs, hc, hf, ha, unlock, blockAdd, hl]
  · exact hr

end resize

/-! ## `mmem_free_all` -/

/-- **One block** is taken out of the table and given back. -/
theorem Tracks.giveBack {f : Mem → Mem} (ht : Tracks s (b :: bs) []) (hr : s.ready = true)
    (hk : Keeps s.list (bs.map Blk.region) f) :
    ∃ t, Mmem.realFree (Mmem.blockDel { s with mem := setBlockMagicFree s.mem b.addr } b.addr)
        b.addr f = some t ∧
      Tracks t bs [] ∧ t.list = s.list ∧ t.locked = s.locked ∧ t.ready = true ∧
      t.table.maxTotalSize = s.table.maxTotalSize ∧ t.table.maxActiveSize = s.table.maxActiveSize ∧
      t.calls = s.calls ++ [.free b.addr] ∧ t.mem = f (Mmem.retire s b.addr).mem := by
  obtain ⟨h₁, -, -⟩ := Tracks.retire (show Tracks s ([] ++ b :: bs) [] from ht)
  have hkeep : Keeps (Mmem.retire s b.addr).list
      (Mmem.otherRegions (Mmem.retire s b.addr).regions b.addr) f := by
    rw [list_retire]
    exact hk.mono fun _ hx => h₁.otherRegions.mem_iff.1 hx
  obtain ⟨t, hf, htr, hmem, hlist, hlock, hready, htable, hcalls⟩ := h₁.realFree hkeep
  rw [← retire_eq hr]
  refine ⟨t, hf, htr, hlist.trans (list_retire _ _), hlock.trans (locked_retire _ _),
    hready.trans (ready_retire _ _), ?_, ?_, ?_, hmem⟩
  · rw [htable, maxTotalSize_retire]
  · rw [htable, maxActiveSize_retire]
  · rw [hcalls, calls_retire]

/-- The loop releases the blocks one after another. The bytes `K` are some the underlying allocator
keeps throughout. -/
theorem freeAllLoop_spec {f : Nat → Mem → Mem} {K : Set Nat} : ∀ (bs : List Blk) (s : State)
    (fuel : Nat), Tracks s bs [] → s.ready = true → bs.length < fuel →
    (∀ l₁ b l₂, bs = l₁ ++ b :: l₂ → Keeps s.list (l₂.map Blk.region) (f b.addr)) →
    (∀ b ∈ bs, ∀ m, ∀ x ∈ K, f b.addr m x = m x) →
    ∃ s', freeAllLoop f fuel s (firstNode s.list bs) (next s.mem (firstNode s.list bs)) = some s' ∧
      Tracks s' [] [] ∧ s'.locked = s.locked ∧ s'.list = s.list ∧
      s'.ready = true ∧ s'.table.maxTotalSize = s.table.maxTotalSize ∧
      s'.table.maxActiveSize = s.table.maxActiveSize ∧
      s'.calls = s.calls ++ bs.map (fun b => .free b.addr) ∧
      (∀ x ∈ K, x ∉ ownedBytes s.list (bs.map Blk.region) → s'.mem x = s.mem x) ∧
      ∀ b ∈ bs, bytesAt b.addr 8 ⊆ K →
        readBytes s'.mem b.addr 8 = bytesLE 8 MMEM_BLOCK_FREE_HEAD_MAGIC := by
  intro bs
  induction bs with
  | nil =>
    intro s fuel ht hr hfuel _ _
    obtain ⟨fuel, rfl⟩ := Nat.exists_eq_succ_of_ne_zero (Nat.ne_of_gt hfuel)
    exact ⟨s, if_pos rfl, ht, rfl, rfl, hr, rfl, rfl, by simp, fun _ _ _ => rfl, by simp⟩
  | cons b bs ih =>
    intro s fuel ht hr hfuel hk hK
    obtain ⟨fuel, rfl⟩ := Nat.exists_eq_succ_of_ne_zero (Nat.ne_of_gt (Nat.zero_lt_of_lt hfuel))
    have hframe := (Tracks.retire (show Tracks s ([] ++ b :: bs) [] from ht)).2.2
    have hnext : next s.mem b.node = firstNode s.list bs :=
      Tracks.next_node (show Tracks s ([] ++ b :: bs) [] from ht)
    obtain ⟨t, hf, htr, hlist, hlock, hready, hmt, hma, hcalls, hmem⟩ :=
      ht.giveBack hr (hk [] b bs rfl)
    have hreg := ht.blk_layout.apart
    rw [List.map_cons, List.pairwise_cons] at hreg
    obtain ⟨s', hs', htr', hlock', hlist', hready', hmt', hma', hcalls', hK', hhead'⟩ := ih t fuel htr
      hready (by simpa using hfuel)
      (fun l₁ b' l₂ he => by rw [hlist]; exact hk (b :: l₁) b' l₂ (by rw [he]; rfl))
      (fun b' hb' => hK b' (List.mem_cons_of_mem b hb'))
    rw [hlist] at hs' hlist' hK'
    -- bytes the underlying allocator keeps only change where the block retires
    have hmem' : ∀ x ∈ K, x ∉ tableBytes s.list (b :: bs) → t.mem x = freeMem s.mem b x := by
      intro x hxK hx
      rw [hmem, hK b List.mem_cons_self _ x hxK]
      exact hframe x hx
    refine ⟨s', ?_, htr', hlock'.trans hlock, hlist', hready', hmt'.trans hmt, hma'.trans hma, ?_,
      fun x hxK hx => ?_, fun b' hb' hsub => ?_⟩
    · show freeAllLoop f (fuel + 1) s b.node (next s.mem b.node) = some s'
      rw [freeAllLoop, if_neg (ht.node_ne_list List.mem_cons_self), nodeBlock_node, hnext]
      simp only [hf, Option.bind_eq_bind, Option.bind_some]
      exact hs'
    · rw [hcalls', hcalls, List.map_cons, List.append_assoc, List.singleton_append]
    · have hb : ¬ InRegion b.region x := fun hx' => hx (.inr ⟨_, List.mem_cons_self, hx'⟩)
      rw [hK' x hxK fun hx' => hx (ownedBytes_mono (List.subset_cons_self _ _) hx'),
        hmem' x hxK fun hx' => hx (tableBytes_subset hx')]
      exact freeMem_of_not _ fun hm => hb (magicBytes_subset hm).1
    · rcases List.mem_cons.1 hb' with rfl | hb'
      · rw [← readBytes_freeMem_head s.mem b']
        refine readBytes_congr fun i hi => ?_
        have hx : b'.addr + i ∈ clientBytes b' := magicBytes_subset (.inl ⟨by omega, by omega⟩)
        rw [hK' _ (hsub ⟨by omega, by omega⟩), hmem' _ (hsub ⟨by omega, by omega⟩)]
        · exact ht.blk_layout.not_tableBytes List.mem_cons_self hx
        · rintro (hl | ⟨r, hr, hxr⟩)
          · exact (ht.blk_layout.apart_list _ (List.mem_map_of_mem List.mem_cons_self)).not_inRegion
              hl hx.1
          · exact (hreg.1 r hr).not_inRegion hx.1 hxr
      · exact hhead' b' hb' hsub

theorem Inv.length_lt (hi : Inv s h) : h.blocks.length < s.regions.length + 1 := by
  have := hi.tracks.regions.length_eq
  rw [List.append_nil, List.length_map] at this
  omega

end FwkMlib.Mmem
