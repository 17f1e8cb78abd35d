import FwkMlib.Mmem.Dump

/-!
# One step of a run

Each operation on a state that carries a heap: it runs to its end and the state carries the heap's
next.

* `Effect` : what a call changes, beside the heap: the peaks of the table, and which bytes outside
  the live blocks it leaves alone when the underlying allocator does;
* `Inv.alloc`, `Inv.calloc`, `Inv.free`, `Inv.realloc`, `Inv.freeAll`, `Inv.dump`, `Inv.write`, one
  for each call, and `Inv.step` for all of them.
-/

namespace FwkMlib.Mmem
open FwkMlib.Lib FwkMlib.Mlist

variable {s s' t : State} {h h' : Heap} {bs : List Blk} {b : Blk} {a size file : Nat} {line : Int}
  {ans : Answer} {f : Mem → Mem} {m : Mem} {K : Set Nat}

/-- The peaks of the table: blocks may have left and the peaks stand, or they are brought up to
what the table counts now. -/
def Peaks (s s' : State) (h h' : Heap) : Prop :=
  (s'.table.maxTotalSize = s.table.maxTotalSize ∧ s'.table.maxActiveSize = s.table.maxActiveSize ∧
    List.Subperm h'.blocks h.blocks) ∨
  (s'.table.maxTotalSize = max s.table.maxTotalSize s'.table.totalSize ∧
    s'.table.maxActiveSize = max s.table.maxActiveSize s'.table.activeSize)

/-- A call has run to its end; `K` are bytes the underlying allocator keeps. -/
structure Effect (K : Set Nat) (s s' : State) (h h' : Heap) : Prop where
  inv : Inv s' h'
  list : s'.list = s.list
  peaks : Peaks s s' h h'
  kept : ∀ x ∈ K, x ∉ ownedBytes s.list (h.blocks.map Blk.region) →
    x ∉ ownedBytes s.list (h'.blocks.map Blk.region) → s'.mem x = s.mem x
  released : ∀ b ∈ h.blocks, (∀ b' ∈ h'.blocks, Apart (b.addr, 8) b'.region) →
    bytesAt b.addr 8 ⊆ K → readBytes s'.mem b.addr 8 = bytesLE 8 MMEM_BLOCK_FREE_HEAD_MAGIC

theorem head_not_apart (b : Blk) : ¬ Apart (b.addr, 8) b.region := by
  unfold Apart Blk.region
  omega

/-- A call after which every block is still there releases none. -/
theorem Effect.of_subset (hi : Inv s' h') (hl : s'.list = s.list) (hp : Peaks s s' h h')
    (hk : ∀ x ∈ K, x ∉ ownedBytes s.list (h.blocks.map Blk.region) →
      x ∉ ownedBytes s.list (h'.blocks.map Blk.region) → s'.mem x = s.mem x)
    (hsub : h.blocks ⊆ h'.blocks) : Effect K s s' h h' :=
  ⟨hi, hl, hp, hk, fun b hb ha _ => absurd (ha b (hsub hb)) (head_not_apart b)⟩

theorem Effect.refl (hi : Inv s h) : Effect K s s h h :=
  .of_subset hi rfl (.inl ⟨rfl, rfl, List.Subperm.refl _⟩) (fun _ _ _ _ => rfl) (List.Subset.refl _)

theorem Placed.peaks (hp : Placed t s' bs b m) (hmt : t.table.maxTotalSize = s.table.maxTotalSize)
    (hma : t.table.maxActiveSize = s.table.maxActiveSize) : Peaks s s' h h' :=
  .inr ⟨by rw [hp.maxTotalSize, hmt], by rw [hp.maxActiveSize, hma]⟩

theorem Placed.kept {x : Nat} (hp : Placed t s' bs b m)
    (hx : x ∉ ownedBytes t.list ((bs ++ [b]).map Blk.region)) : s'.mem x = m x := by
  rw [← hp.list] at hx
  rw [hp.mem x fun ht => hx (tableBytes_subset ht)]
  refine activeMem_of_not _ fun hm => hx (.inr ⟨b.region, ?_, (magicBytes_subset hm).1⟩)
  exact List.mem_map_of_mem (List.mem_append_right bs (List.mem_singleton_self b))

/-! ## The operations that give out a block -/

theorem Inv.kept (hi : Inv s h) (hk : Keeps s.list s.regions f) :
    ∀ b ∈ h.blocks, ∀ x ∈ clientBytes b, f s.mem x = h.view x := by
  intro b hb x hx
  rw [hk s.mem x (.inr ⟨b.region, hi.tracks.mem_regions hb, hx.1⟩), hi.view b hb x hx]

theorem Inv.refused {call : RealCall} {n : Nat} (hi : Inv s h) (ha : ans.addr = none)
    (hk : Keeps s.list s.regions ans.mem) (hK : ∀ m, ∀ x ∈ K, ans.mem m x = m x) :
    Effect K s (realAlloc s call n ans) h h :=
  .of_subset ⟨hi.tracks.realAlloc_none ha hk, hi.kept hk, hi.unlocked⟩ rfl
    (.inl ⟨rfl, rfl, List.Subperm.refl _⟩) (fun x hx _ _ => hK s.mem x hx) (List.Subset.refl _)

theorem Inv.granted (b : Blk) (call : RealCall) (hi : Inv s h) (ha : ans.addr = some b.addr)
    (hl : ans.Lawful s.list s.regions (b.size + 64)) :
    Placed (realAlloc { s with locked := true } call (b.size + 64) ans)
      { install (realAlloc { s with locked := true } call (b.size + 64) ans)
        b.addr b.size (b.size + 64) b.file b.line with locked := false } h.blocks b
      (ans.mem s.mem) := by
  have hn : 64 ≤ b.size + 64 := by omega
  exact placed_install ((hi.tracks.setLocked true).realAlloc ha hn hl)

theorem Fits.of_some {n : Nat} (hf : Fits n ans) (ha : ans.addr = some a) : n + 64 < 2 ^ 64 :=
  hf.resolve_right fun he => by rw [he] at ha; cases ha

theorem Inv.effect_place {bytes : Nat → UInt8} (hi : Inv s h) (hp : Placed t s' h.blocks b (f s.mem))
    (hl : t.list = s.list) (ht : t.table = s.table) (hk : Keeps s.list s.regions f)
    (hK : ∀ m, ∀ x ∈ K, f m x = m x) (hb : ∀ x, b.data ≤ x → x < b.tail → f s.mem x = bytes x) :
    Effect K s s' h (h.place b bytes) := by
  refine .of_subset (Inv.place hp (hi.kept hk) hb) (hp.list.trans hl)
    (hp.peaks (by rw [ht]) (by rw [ht])) (fun x hxK _ hx => ?_) (List.subset_append_left _ _)
  rw [hp.kept (by rwa [hl]), hK s.mem x hxK]

theorem Inv.alloc (hi : Inv s h) (ok : AllocOk s size ans)
    (hK : ∀ m, ∀ x ∈ K, ans.mem m x = m x) :
    ∃ s' r, mmemAlloc s size file line ans = some (s', r) ∧
      Effect K s s' h (h.alloc size file line ans s'.mem) := by
  by_cases hs : size = 0
  · subst hs
    exact ⟨s, NULL, mmemAlloc_zero hi.unlocked, by rw [Heap.alloc, if_pos rfl]; exact .refl hi⟩
  · obtain ⟨hf, hl⟩ := ok hs
    cases ha : ans.addr with
    | none =>
      refine ⟨_, _, mmemAlloc_refused hi.unlocked hs ha, ?_⟩
      rw [Heap.alloc, if_neg hs, ha]
      exact hi.refused ha hl.keeps hK
    | some a =>
      have hfit := hf.of_some ha
      have hp := Inv.granted ⟨a, size, file, line⟩ (.malloc (size + 64)) hi ha
        (by rwa [totalSize_eq hfit] at hl)
      refine ⟨_, _, mmemAlloc_done hi.unlocked hs ha, ?_⟩
      rw [totalSize_eq hfit, Heap.alloc, if_neg hs, ha]
      exact hi.effect_place hp rfl rfl hl.keeps hK fun x hx hx' => (hp.data hx hx').symm

theorem Inv.calloc {counts itemSize : Nat} (hi : Inv s h) (ok : CallocOk s counts itemSize ans)
    (hK : ∀ m, ∀ x ∈ K, ans.mem m x = m x) :
    ∃ s' r, mmemCalloc s counts itemSize file line ans = some (s', r) ∧
      Effect K s s' h (h.calloc counts itemSize file line ans) := by
  by_cases hs : counts = 0 ∨ itemSize = 0
  · exact ⟨s, NULL, mmemCalloc_zero hi.unlocked hs, by rw [Heap.calloc, if_pos hs]; exact .refl hi⟩
  · obtain ⟨hf, hl, hz⟩ := ok (fun he => hs (.inl he)) (fun he => hs (.inr he))
    cases ha : ans.addr with
    | none =>
      refine ⟨_, _, mmemCalloc_refused hi.unlocked hs ha, ?_⟩
      rw [Heap.calloc, if_neg hs, ha]
      exact hi.refused ha hl.keeps hK
    | some a =>
      have hfit := hf.of_some ha
      rw [totalSize_eq hfit] at hl hz
      have hp := Inv.granted ⟨a, counts * itemSize % 2 ^ 64, file, line⟩
        (.calloc 1 (counts * itemSize % 2 ^ 64 + 64)) hi ha hl
      refine ⟨_, _, mmemCalloc_done hi.unlocked hs ha, ?_⟩
      rw [totalSize_eq hfit, Heap.calloc, if_neg hs, ha]
      refine hi.effect_place hp rfl rfl hl.keeps hK fun x hx hx' => ?_
      obtain ⟨i, rfl⟩ := Nat.exists_eq_add_of_le hx
      simp only [Blk.tail, Blk.data, blockData, MMEM_BLOCK_SIZE] at hx'
      have h₀ := hz a ha s.mem (56 + i) (by omega)
      rwa [← Nat.add_assoc] at h₀

/-! ## `mmem_free` -/

/-- Bytes the underlying allocator keeps are those of the moment before its call. -/
theorem readBytes_kept {n : Nat} (hK : ∀ m, ∀ x ∈ K, f m x = m x) (hs : bytesAt a n ⊆ K)
    (m : Mem) : readBytes (f m) a n = readBytes m a n :=
  readBytes_congr fun i hi => hK m _ (hs ⟨by omega, by omega⟩)

theorem Inv.find_intact (hi : Inv s h) (hb : b ∈ h.blocks) (hint : h.Intact b) :
    checkBlockMagicActive s.mem (Mmem.getBlock b.data) = 0 := by
  rw [hi.getBlock hb]
  exact (hi.check hb).2 hint

theorem Inv.find_touched (hi : Inv s h) (hb : b ∈ h.blocks) (hint : ¬ h.Intact b) :
    checkBlockMagicActive s.mem (Mmem.getBlock b.data) ≠ 0 := by
  rw [hi.getBlock hb]
  exact fun he => hint ((hi.check hb).1 he)

theorem blockData_ne_null (a : Nat) : blockData a ≠ NULL := by
  unfold blockData MMEM_BLOCK_SIZE NULL
  omega

theorem Blk.data_ne_null (b : Blk) : b.data ≠ NULL := blockData_ne_null b.addr

/-- `mmem_free` of an untouched live block releases it. -/
theorem Inv.free_done (hi : Inv s h) (hb : b ∈ h.blocks) (hint : h.Intact b)
    (hk : Keeps s.list (otherRegions s.regions b.addr) f) (hK : ∀ m, ∀ x ∈ K, f m x = m x) :
    ∃ s', mmemFree s b.data f = some s' ∧ Effect K s s' h (h.release b) := by
  obtain ⟨l₁, l₂, hsplit, herase⟩ := hi.split hb
  have hr := hi.retired hsplit
  have hg := hi.getBlock hb
  have hk' : Keeps (retire { s with locked := true } b.addr).list
      (otherRegions (retire { s with locked := true } b.addr).regions b.addr) f := by
    rw [hr.list, hr.regions]
    exact hk
  obtain ⟨t, hf, htr, hmem, hlist, hlock, -, htable, -⟩ := hr.tracks.realFree hk'
  have hl : t.locked = true := by rw [hlock, hr.locked]
  refine ⟨_, mmemFree_done hi.unlocked b.data_ne_null (hi.find_intact hb hint)
    (by rw [hg]; exact hf) hl, ⟨?_, fun b' hb' x hx => ?_, rfl⟩, ?_, .inl ⟨?_, ?_, ?_⟩,
    fun x hxK hx _ => ?_, fun b' hb' hapart hsub => ?_⟩
  · show Tracks _ (h.blocks.erase b) []
    rw [herase]
    exact htr.setLocked false
  · have hb'' : b' ∈ l₁ ++ l₂ := herase ▸ hb'
    show t.mem x = h.view x
    rw [hmem, hr.tracks.keepsOthers hk' _ x (clientBytes_subset hb'' hx)]
    exact hr.others b' hb'' x hx
  · exact hlist.trans hr.list
  · exact (congrArg Table.maxTotalSize htable).trans hr.maxTotalSize
  · exact (congrArg Table.maxActiveSize htable).trans hr.maxActiveSize
  · exact (List.erase_sublist : List.Sublist (h.blocks.erase b) h.blocks).subperm
  · show t.mem x = s.mem x
    rw [hmem, hK _ x hxK]
    exact hr.kept x hx
  · -- only the block itself has left
    by_cases he : b' = b
    · subst he
      show readBytes t.mem b'.addr 8 = _
      rw [hmem, readBytes_kept hK hsub]
      exact hr.head
    · exact absurd (hapart b' ((List.mem_erase_of_ne he).2 hb')) (head_not_apart b')

/-- **`mmem_free`** of a live block releases it when its magics are untouched, and leaves everything
as it was otherwise. -/
theorem Inv.free (hi : Inv s h) (ok : FreeOk s h a f) (hK : ∀ m, ∀ x ∈ K, f m x = m x) :
    ∃ s', mmemFree s a f = some s' ∧ Effect K s s' h (h.free a) := by
  by_cases hn : a = NULL
  · subst hn
    exact ⟨s, mmemFree_null hi.unlocked, by rw [Heap.free, h.find_null]; exact .refl hi⟩
  · obtain ⟨b, hb, rfl, hk⟩ := ok hn
    rw [Heap.free, hi.find hb]
    by_cases hint : h.Intact b
    · simp only [if_pos hint]
      exact hi.free_done hb hint hk hK
    · simp only [if_neg hint]
      exact ⟨s, mmemFree_refused hi.unlocked (hi.find_touched hb hint), .refl hi⟩

/-! ## `mmem_realloc` -/

section resizing

variable (hi : Inv s h) (hb : b ∈ h.blocks) (hint : h.Intact b) (hs : size ≠ 0)
  (hl : ans.Lawful s.list (otherRegions s.regions b.addr) (totalSize size))
  (hcp : ans.Copies b.region (totalSize size)) (hK : ∀ m, ∀ x ∈ K, ans.mem m x = m x)

include hi hb hint hs hl hcp hK

/-- A resizing that fails puts the block back, behind the others. -/
theorem Inv.realloc_failed (file : Nat) (line : Int) (ha : ans.addr = none) :
    ∃ s', mmemRealloc s b.data size file line ans = some (s', NULL) ∧
      Effect K s s' h { h with blocks := h.blocks.erase b ++ [b] } := by
  obtain ⟨l₁, l₂, hsplit, herase⟩ := hi.split hb
  have hr := hi.retired hsplit
  have hg := hi.getBlock hb
  have hk : Keeps (retire { s with locked := true } b.addr).list
      (otherRegions (retire { s with locked := true } b.addr).regions b.addr) ans.mem := by
    rw [hr.list, hr.regions]
    exact hl.keeps
  obtain ⟨t, hf, htr, hmem, hlist, hlock, hready, htable, -⟩ :=
    @Tracks.realRealloc_none _ _ _ (totalSize size) _ hr.tracks ha hk
  have hkept := fun x hx => hcp.kept ha (retire { s with locked := true } b.addr).mem x hx
  have hhead : Header t.mem b := by
    refine hr.header.congr fun x hx hx' => ?_
    rw [hmem]
    refine hkept x ?_
    unfold InRegion Blk.region
    omega
  have hact : mmemRealloc s b.data size file line ans =
      some ({ activate t (Mmem.getBlock b.data) with locked := false }, NULL) :=
    mmemRealloc_failed hi.unlocked b.data_ne_null hs (hi.find_intact hb hint)
      (by rw [hg]; exact hf) (by rw [hlock]; exact hr.locked) (by rw [hready]; exact hr.ready) ha
  rw [hg] at hact
  have hp := placed_activate htr hhead
  have hinv : Inv { activate t b.addr with locked := false }
      { h with blocks := h.blocks.erase b ++ [b] } := by
    refine Inv.putBack hp (by rw [herase]) (fun b' hb' x hx => ?_) hint fun x hx hx' => ?_
    · rw [hmem, hr.tracks.keepsOthers hk _ x (clientBytes_subset hb' hx)]
      exact hr.others b' hb' x hx
    · rw [hmem, hkept x (mem_clientBytes_of_data hx hx').1.1]
      exact hr.data x hx hx'
  refine ⟨_, hact, .of_subset hinv (hp.list.trans (hlist.trans hr.list)) (hp.peaks ?_ ?_)
    (fun x hxK hx hx' => ?_) fun b' hb' => ?_⟩
  · exact (congrArg Table.maxTotalSize htable).trans hr.maxTotalSize
  · exact (congrArg Table.maxActiveSize htable).trans hr.maxActiveSize
  · rw [herase] at hx'
    rw [hp.kept (by rw [hlist, hr.list]; exact hx'), hmem, hK _ x hxK, hr.kept x hx]
  · by_cases he : b' = b
    · exact List.mem_append_right _ (List.mem_singleton.2 he)
    · exact List.mem_append_left _ ((List.mem_erase_of_ne he).2 hb')

omit hint hs hl hcp hK in
theorem Inv.head_not_owned {bs : List Blk} (hapart : ∀ b₁ ∈ bs, Apart (b.addr, 8) b₁.region) {i : Nat}
    (hi₈ : i < 8) : b.addr + i ∉ ownedBytes s.list (bs.map Blk.region) := by
  rintro (hx | ⟨r, hr, hx⟩)
  · have := hi.tracks.layout.apart_list _ (hi.tracks.mem_regions hb)
    unfold Apart Blk.region at this
    unfold InRegion at hx
    omega
  · obtain ⟨b₁, hb₁, rfl⟩ := List.mem_map.1 hr
    refine (hapart b₁ hb₁).not_inRegion ?_ hx
    unfold InRegion
    omega

omit hi hb hint hs hl hcp hK in
/-- The common prefix travels with the region. -/
theorem Answer.Copies.data {a' x file : Nat} {line : Int} (hcp : ans.Copies b.region (size + 64))
    (ha : ans.addr = some a') (m : Mem) (hx : (⟨a', size, file, line⟩ : Blk).data ≤ x)
    (hx' : x < (⟨a', size, file, line⟩ : Blk).tail)
    (hpre : x < (⟨a', size, file, line⟩ : Blk).data + b.size) :
    ans.mem m x = m (b.data + (x - (⟨a', size, file, line⟩ : Blk).data)) := by
  obtain ⟨j, rfl⟩ := Nat.exists_eq_add_of_le hx
  simp only [Blk.tail, Blk.data, blockData, MMEM_BLOCK_SIZE] at hx' hpre
  have hmv := hcp.moved a' ha m (56 + j) (by
    unfold Blk.region
    omega)
  rw [Nat.add_sub_cancel_left]
  simpa only [Blk.data, blockData, MMEM_BLOCK_SIZE, Nat.add_assoc, Blk.region] using hmv

theorem Inv.realloc_done (file : Nat) (line : Int) {a' : Nat} (ha : ans.addr = some a')
    (hfit : size + 64 < 2 ^ 64) :
    ∃ s', mmemRealloc s b.data size file line ans = some (s', blockData a') ∧
      Effect K s s' h ((h.release b).place ⟨a', size, file, line⟩
        (h.resized b ⟨a', size, file, line⟩ s'.mem)) := by
  obtain ⟨l₁, l₂, hsplit, herase⟩ := hi.split hb
  have hr := hi.retired hsplit
  have hg := hi.getBlock hb
  rw [totalSize_eq hfit] at hl hcp
  have hl' : ans.Lawful (retire { s with locked := true } b.addr).list
      (otherRegions (retire { s with locked := true } b.addr).regions b.addr) (size + 64) := by
    rw [hr.list, hr.regions]
    exact hl
  obtain ⟨t, hf, htr, hmem, hlist, hlock, hready, htable, -⟩ :=
    hr.tracks.realRealloc ha (by omega) hl'
  have hdone : mmemRealloc s b.data size file line ans =
      some ({ install t a' size (totalSize size) file line with locked := false },
        blockData a') :=
    mmemRealloc_done hi.unlocked b.data_ne_null hs (hi.find_intact hb hint)
      (by rw [hg, totalSize_eq hfit]; exact hf) (by rw [hlock]; exact hr.locked)
      (by rw [hready]; exact hr.ready) ha
  rw [totalSize_eq hfit] at hdone
  have hp₀ : Placed t { install t a' size (size + 64) file line with locked := false }
      (l₁ ++ l₂) ⟨a', size, file, line⟩ t.mem :=
    @placed_install t (l₁ ++ l₂) ⟨a', size, file, line⟩ htr
  have hp : Placed t { install t a' size (size + 64) file line with locked := false }
      (h.release b).blocks ⟨a', size, file, line⟩ t.mem := by
    rw [Heap.release, herase]
    exact hp₀
  have hinv := @Inv.place _ _ _ _ _ (h.resized b ⟨a', size, file, line⟩
      ({ install t a' size (size + 64) file line with locked := false } : State).mem) hp
    (fun b' hb' x hx => by
      have hb'' : b' ∈ l₁ ++ l₂ := herase ▸ hb'
      rw [hmem, hr.tracks.keepsOthers hl'.keeps _ x (clientBytes_subset hb'' hx)]
      exact hr.others b' hb'' x hx)
    fun x hx hx' => by
      unfold Heap.resized
      split_ifs with hpre
      · have hj : b.data + (x - (⟨a', size, file, line⟩ : Blk).data) < b.tail := by
          unfold Blk.tail
          omega
        rw [hmem, ← hr.data _ (Nat.le_add_right _ _) hj]
        exact hcp.data ha _ hx hx' hpre
      · exact (hp.data hx hx').symm
  refine ⟨_, hdone, hinv, hp.list.trans (hlist.trans hr.list), hp.peaks ?_ ?_,
    fun x hxK hx hx' => ?_, fun b' hb' hapart hsub => ?_⟩
  · exact (congrArg Table.maxTotalSize htable).trans hr.maxTotalSize
  · exact (congrArg Table.maxActiveSize htable).trans hr.maxActiveSize
  · rw [hp.kept (by rw [hlist, hr.list]; exact hx'), hmem, hK _ x hxK, hr.kept x hx]
  · -- only the block itself has left, and its head magic lies outside the new region
    by_cases he : b' = b
    · subst he
      have hlist' : t.list = s.list := hlist.trans hr.list
      have hout := fun i (hi₈ : i < 8) => hi.head_not_owned hb hapart hi₈
      rw [← hlist'] at hout
      refine (readBytes_congr fun i hi₈ => hp.kept (hout i hi₈)).trans ?_
      rw [hmem, readBytes_kept hK hsub]
      exact hr.head
    · refine absurd (hapart b' (List.mem_append_left _ ?_)) (head_not_apart b')
      exact (List.mem_erase_of_ne he).2 hb'

end resizing

theorem Inv.realloc (hi : Inv s h) (ok : ReallocOk s h a size ans)
    (hK : ∀ m, ∀ x ∈ K, ans.mem m x = m x) :
    ∃ s' r, mmemRealloc s a size file line ans = some (s', r) ∧
      Effect K s s' h (h.realloc a size file line ans s'.mem) := by
  unfold ReallocOk at ok
  unfold Heap.realloc
  split_ifs at ok ⊢ with hn hs
  · subst hn
    rw [mmemRealloc_null hi.unlocked]
    exact hi.alloc ok hK
  · subst hs
    obtain ⟨s', hf, hi'⟩ := hi.free ok hK
    exact ⟨s', NULL, by rw [mmemRealloc_zero hi.unlocked hn, hf]; rfl, hi'⟩
  · obtain ⟨b, hb, rfl, hfit, hl, hcp⟩ := ok
    rw [hi.find hb]
    by_cases hint : h.Intact b
    · simp only [if_pos hint]
      cases ha : ans.addr with
      | none =>
        obtain ⟨s', he, hi'⟩ := hi.realloc_failed hb hint hs hl hcp hK file line ha
        exact ⟨s', NULL, he, hi'⟩
      | some a' =>
        obtain ⟨s', he, hi'⟩ := hi.realloc_done hb hint hs hl hcp hK file line ha
          (hfit.of_some ha)
        exact ⟨s', _, he, hi'⟩
    · simp only [if_neg hint]
      exact ⟨s, NULL, mmemRealloc_refused hi.unlocked hn hs (hi.find_touched hb hint), .refl hi⟩

/-- The bound on the loops over the table, in the state they start in. -/
theorem Inv.length_lt_locked (hi : Inv s h) :
    h.blocks.length < (blockTableGet { s with locked := true }).regions.length + 1 := by
  rw [regions_blockTableGet]
  exact hi.length_lt

/-! ## `mmem_free_all` -/

/-- **`mmem_free_all`** releases every live block, in the order of the list. -/
theorem Inv.freeAll {f : Nat → Mem → Mem} (hi : Inv s h) (ok : FreeAllOk s h f)
    (hK : ∀ b ∈ h.blocks, ∀ m, ∀ x ∈ K, f b.addr m x = m x) :
    ∃ s', mmemFreeAll s f = some s' ∧ Effect K s s' h h.freeAll ∧ s'.ready = true ∧
      s'.table.maxTotalSize = s.table.maxTotalSize ∧
      s'.table.maxActiveSize = s.table.maxActiveSize ∧
      s'.calls = s.calls ++ h.blocks.map (fun b => .free b.addr) := by
  obtain ⟨h₁, hr₁, hm₁⟩ := (hi.tracks.setLocked true).blockTableGet
  have hok : ∀ l₁ b l₂, h.blocks = l₁ ++ b :: l₂ →
      Keeps (blockTableGet { s with locked := true }).list (l₂.map Blk.region) (f b.addr) := by
    rw [list_blockTableGet]
    exact ok
  obtain ⟨s', hs', htr, hlock, hlist, hready, hmt, hma, hcalls, hmem, hhead⟩ :=
    freeAllLoop_spec h.blocks _ _ h₁ hr₁ hi.length_lt_locked hok hK
  rw [locked_blockTableGet] at hlock
  rw [list_blockTableGet] at hmem hlist
  rw [maxTotalSize_blockTableGet] at hmt
  rw [maxActiveSize_blockTableGet] at hma
  refine ⟨{ s' with locked := false }, ?_, ⟨⟨htr.setLocked false, by simp [Heap.freeAll], rfl⟩,
    hlist, .inl ⟨hmt, hma, List.nil_subperm⟩, fun x hxK hx _ => ?_, fun b hb _ => hhead b hb⟩,
    hready, hmt, hma, by simpa using hcalls⟩
  · rw [← h₁.next_list hr₁] at hs'
    rw [mmemFreeAll, lock_eq hi.unlocked]
    simp only [Option.bind_eq_bind, Option.bind_some, hs', unlock_eq hlock]
  · exact (hmem x hxK hx).trans (hm₁ x fun ht => hx (tableBytes_subset ht))

/-! ## `mmem_dump` -/

variable {cmd counts buf bufSize : Nat}

/-- **`mmem_dump`** changes nothing but the caller's buffer. -/
theorem Inv.dump (hi : Inv s h) (ok : DumpOk s h buf bufSize)
    (hK : buf ≠ NULL → Disjoint K (bytesAt buf bufSize)) :
    ∃ s' ret, mmemDump s cmd counts buf bufSize = some (s', ret) ∧
      Effect K s s' h (h.dump buf bufSize s'.mem) := by
  obtain ⟨h₁, hr₁, hm₁⟩ := (hi.tracks.setLocked true).blockTableGet
  have hok : buf ≠ NULL → buf + bufSize ≤ 2 ^ 64 ∧
      Disjoint (tableBytes (blockTableGet { s with locked := true }).list h.blocks)
        (bytesAt buf bufSize) := by
    rw [list_blockTableGet]
    exact ok
  obtain ⟨m, ret, hm, hnull, hbuf⟩ := dumpCmd_spec h₁ hr₁ cmd counts hi.length_lt_locked hok
  have hmem : ∀ x, (buf ≠ NULL → x ∉ bytesAt buf bufSize) →
      m x = (blockTableGet { s with locked := true }).mem x := by
    intro x hx
    by_cases hb : buf = NULL
    · rw [hnull hb]
    · exact hbuf hb x (hx hb)
  have htr : Tracks { blockTableGet { s with locked := true } with mem := m } h.blocks [] :=
    h₁.congr_mem fun x hx => hmem x fun hb => Set.disjoint_left.1 (hok hb).2 hx
  have hlock : (blockTableGet { s with locked := true }).locked = true := by
    rw [locked_blockTableGet]
  have hframe : ∀ x, x ∉ tableBytes s.list h.blocks → (buf ≠ NULL → x ∉ bytesAt buf bufSize) →
      m x = s.mem x := fun x hx hx' => (hmem x hx').trans (hm₁ x hx)
  have hblocks : (h.dump buf bufSize m).blocks = h.blocks := by
    unfold Heap.dump
    split_ifs <;> rfl
  have hview : ∀ b ∈ h.blocks, ∀ x ∈ clientBytes b, m x = (h.dump buf bufSize m).view x := by
    intro b hb x hx
    have ht : x ∉ tableBytes s.list h.blocks := hi.tracks.blk_layout.not_tableBytes hb hx
    unfold Heap.dump
    split_ifs with hn
    · rw [hframe x ht fun hb => absurd hn hb]
      exact hi.view b hb x hx
    · show m x = if buf ≤ x ∧ x < buf + bufSize then m x else h.view x
      split_ifs with hin
      · rfl
      · rw [hframe x ht fun _ => hin]
        exact hi.view b hb x hx
  refine ⟨{ blockTableGet { s with locked := true } with mem := m, locked := false }, ret, ?_,
    .of_subset ⟨?_, fun b hb => hview b (hblocks ▸ hb), rfl⟩ (list_blockTableGet _)
      (.inl ⟨maxTotalSize_blockTableGet _, maxActiveSize_blockTableGet _, ?_⟩)
      (fun x hxK hx _ => ?_) ?_⟩
  · rw [mmemDump, lock_eq hi.unlocked]
    simp only [Option.bind_eq_bind, Option.bind_some, hm, unlock, hlock, if_true]
    rfl
  · rw [hblocks]
    exact htr.setLocked false
  · rw [hblocks]
  · exact hframe x (fun ht => hx (tableBytes_subset ht)) fun hb => Set.disjoint_left.1 (hK hb) hxK
  · rw [hblocks]
    exact List.Subset.refl _

/-! ## Stores by clients -/

theorem Inv.write {x : Nat} {v : UInt8} (hi : Inv s h) (ok : ∃ b ∈ h.blocks, x ∈ clientBytes b) :
    Effect K s { s with mem := writeBytes s.mem x [v] } h (h.write x v) := by
  obtain ⟨b, hb, hx⟩ := ok
  have hframe : ∀ y, y ≠ x → writeBytes s.mem x [v] y = s.mem y := by
    refine fun y hy => Frame.writeBytes _ _ _ y fun hyx => hy ?_
    have := hyx.1
    have := hyx.2
    simp only [List.length_singleton] at this
    omega
  have hinv : Inv { s with mem := writeBytes s.mem x [v] } (h.write x v) := by
    refine ⟨hi.tracks.congr_mem fun y hy => hframe y fun he => ?_, fun b' hb' y hy => ?_,
      hi.unlocked⟩
    · exact hi.tracks.blk_layout.not_tableBytes hb hx (he ▸ hy)
    · exact writeBytes_congr fun _ => hi.view b' hb' y hy
  refine .of_subset hinv rfl (.inl ⟨rfl, rfl, List.Subperm.refl _⟩) (fun y _ hy _ => ?_)
    (List.Subset.refl _)
  refine hframe y fun he => hy (.inr ⟨b.region, List.mem_map_of_mem hb, ?_⟩)
  rw [he]
  exact hx.1

/-! ## Every call -/

/-- The underlying allocator, and the caller of a dump, leave the bytes `K` alone. -/
def Call.Keeps (K : Set Nat) : Call → Prop
  | .alloc _ _ _ ans => ∀ m, ∀ x ∈ K, ans.mem m x = m x
  | .calloc _ _ _ _ ans => ∀ m, ∀ x ∈ K, ans.mem m x = m x
  | .realloc _ _ _ _ ans => ∀ m, ∀ x ∈ K, ans.mem m x = m x
  | .free _ f => ∀ m, ∀ x ∈ K, f m x = m x
  | .freeAll f => ∀ a m, ∀ x ∈ K, f a m x = m x
  | .dump _ _ buf bufSize => buf ≠ NULL → Disjoint K (bytesAt buf bufSize)
  | .write _ _ => True

theorem Call.keeps_empty (c : Call) : c.Keeps ∅ := by
  cases c <;> simp [Call.Keeps]

/-- **Every allowed call** runs to its end, and the state carries the heap's next. -/
theorem Inv.step {c : Call} (hi : Inv s h) (ok : Allowed s h c) (hK : c.Keeps K) :
    ∃ s', exec s c = some s' ∧ Effect K s s' h (h.step c s'.mem) := by
  cases c with
  | alloc size file line ans =>
    obtain ⟨s', r, he, hi'⟩ := hi.alloc ok hK
    exact ⟨s', by rw [exec, he]; rfl, hi'⟩
  | calloc counts itemSize file line ans =>
    obtain ⟨s', r, he, hi'⟩ := hi.calloc ok hK
    exact ⟨s', by rw [exec, he]; rfl, hi'⟩
  | realloc addr size file line ans =>
    obtain ⟨s', r, he, hi'⟩ := hi.realloc ok hK
    exact ⟨s', by rw [exec, he]; rfl, hi'⟩
  | free addr f => exact hi.free ok hK
  | freeAll f =>
    obtain ⟨s', he, hi', -⟩ := hi.freeAll ok fun b _ => hK b.addr
    exact ⟨s', he, hi'⟩
  | dump cmd counts buf bufSize =>
    obtain ⟨s', ret, he, hi'⟩ := hi.dump ok hK
    exact ⟨s', by rw [exec, he]; rfl, hi'⟩
  | write x v => exact ⟨_, rfl, hi.write ok⟩

theorem Inv.effect {c : Call} (hi : Inv s h) (ok : Allowed s h c) (hK : c.Keeps K)
    (he : exec s c = some s') : Effect K s s' h (h.step c s'.mem) := by
  obtain ⟨t, ht, hi'⟩ := hi.step ok hK
  obtain rfl : t = s' := Option.some.inj (ht.symm.trans he)
  exact hi'

end FwkMlib.Mmem
