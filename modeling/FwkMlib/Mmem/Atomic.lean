import FwkMlib.Mmem.Report

/-!
# A resize that fails

`mmem_realloc` takes the block out of the table before it asks the underlying allocator, and puts it
back when that refuses: behind the others.

* `Restored` : all that can be seen of the table and of the blocks is as it was before the call;
* `Reach.realloc_restores_iff` : so it is exactly when the block was the last of the list;
* `realloc_reorders` : two blocks, the first of which is not resized.
-/

namespace FwkMlib.Mmem
open FwkMlib.Lib FwkMlib.Mlist

variable {s s' : State} {h : Heap} {bs bs' : List Blk} {b : Blk} {K : Set Nat}

/-- The blocks in the order of the list, the counters and the peaks, the headers, the magics and the
data of all blocks, and what a dump of the blocks returns. -/
structure Restored (s s' : State) (h : Heap) : Prop where
  list : Ring (Linked s'.mem) (nodesOf s.list h.blocks)
  table : s'.table = s.table
  header : ∀ b ∈ h.blocks, Header s'.mem b
  bytes : ∀ b ∈ h.blocks, ∀ x ∈ clientBytes b, s'.mem x = s.mem x
  dump : ∀ counts buf bufSize, buf ≠ NULL → 32 ≤ bufSize → bufSize < 2 ^ 64 →
    Disjoint (tableBytes s.list h.blocks)
      (bytesAt buf (32 * dumped counts bufSize h.blocks.length)) →
    ∃ s'', mmemDump s' MMEM_DUMP_CMD_MMEM_BLOCK_INFO counts buf bufSize =
        some (s'', (dumped counts bufSize h.blocks.length : Int)) ∧
      readInfos s''.mem buf (dumped counts bufSize h.blocks.length) =
        (h.blocks.take (dumped counts bufSize h.blocks.length)).map Blk.info

/-- The links tell the order of the blocks. -/
theorem Tracks.nodes_eq (ht : Tracks s bs []) (hr : s.ready = true) (hlen : bs.length = bs'.length)
    (hring : Ring (Linked s.mem) (nodesOf s.list bs')) : bs.map Blk.node = bs'.map Blk.node := by
  refine Ring.unique (fun a x y hx hy => hx.1.symm.trans hy.1) (ht.ring hr) hring ?_
  rw [List.length_map, List.length_map, hlen]

/-- The counters are those of the blocks in any order. -/
theorem Tracks.table_eq (ht : Tracks s bs []) (ht' : Tracks s' bs' []) (hp : bs'.Perm bs)
    (hmt : s'.table.maxTotalSize = s.table.maxTotalSize)
    (hma : s'.table.maxActiveSize = s.table.maxActiveSize) : s'.table = s.table := by
  have hcount : s'.table.count = s.table.count := by rw [ht.count, ht'.count, hp.length_eq]
  have htotal : s'.table.totalSize = s.table.totalSize := by
    rw [ht.totalSize, ht'.totalSize, (hp.map _).sum_eq]
  have hactive : s'.table.activeSize = s.table.activeSize := by
    rw [ht.activeSize, ht'.activeSize, (hp.map _).sum_eq]
  cases hs : s.table
  cases hs' : s'.table
  simp_all

/-- The last block is where a block goes that leaves the list and joins it again. -/
theorem Inv.erase_append_eq_iff (hi : Inv s h) (hb : b ∈ h.blocks) :
    h.blocks.erase b ++ [b] = h.blocks ↔ h.blocks.getLast? = some b := by
  obtain ⟨l₁, l₂, hsplit, herase⟩ := hi.split hb
  constructor
  · intro he
    rw [← he, List.getLast?_concat]
  · intro hl
    rcases List.eq_nil_or_concat l₂ with rfl | ⟨l, z, rfl⟩
    · rw [herase, List.append_nil, hsplit]
    · exfalso
      have hn := hi.tracks.nodup
      rw [List.concat_eq_append] at hsplit
      rw [hsplit, ← List.cons_append, ← List.append_assoc, List.getLast?_concat] at hl
      obtain rfl : z = b := Option.some.inj hl
      rw [hsplit, List.nodup_middle, List.nodup_cons] at hn
      exact hn.1 (by simp)

theorem Inv.perm_erase_append (hb : b ∈ h.blocks) : (h.blocks.erase b ++ [b]).Perm h.blocks :=
  List.perm_append_comm.trans (List.perm_cons_erase hb).symm

/-- What a failed resize leaves, whatever the order of the blocks. -/
theorem Reach.realloc_fails (hr : Reach s h) (hb : b ∈ h.blocks) (hint : h.Intact b) {size : Nat}
    (hs : size ≠ 0) (file : Nat) (line : Int) {ans : Answer} (ha : ans.addr = none)
    (hl : ans.Lawful s.list (otherRegions s.regions b.addr) (totalSize size))
    (hcp : ans.Copies b.region (totalSize size)) :
    ∃ s', mmemRealloc s b.data size file line ans = some (s', NULL) ∧ s'.list = s.list ∧
      Inv s' { h with blocks := h.blocks.erase b ++ [b] } ∧ s'.table = s.table := by
  have hi := hr.inv
  obtain ⟨s', he, hef⟩ := @Inv.realloc_failed _ _ _ _ _ ∅ hi hb hint hs hl hcp (by simp) file line ha
  obtain ⟨ht, ha'⟩ := hef.maxima hi hr.bounded
  have hp := Inv.perm_erase_append hb
  have htotal : s'.table.totalSize = s.table.totalSize := by
    rw [hef.inv.tracks.totalSize, hi.tracks.totalSize, (hp.map _).sum_eq]
  have hactive : s'.table.activeSize = s.table.activeSize := by
    rw [hef.inv.tracks.activeSize, hi.tracks.activeSize, (hp.map _).sum_eq]
  refine ⟨s', he, hef.list, hef.inv, hi.tracks.table_eq hef.inv.tracks hp ?_ ?_⟩
  · rw [ht, htotal, Nat.max_eq_left hr.bounded.totalSize]
  · rw [ha', hactive, Nat.max_eq_left hr.bounded.activeSize]

/-- The list is in its old order exactly when the block was the last. -/
theorem Inv.ring_iff_last (hi : Inv s h) (hb : b ∈ h.blocks)
    (hi' : Inv s' { h with blocks := h.blocks.erase b ++ [b] }) (hlist : s'.list = s.list) :
    Ring (Linked s'.mem) (nodesOf s.list h.blocks) ↔ h.blocks.getLast? = some b := by
  have hready : s'.ready = true :=
    hi'.tracks.ready (List.mem_append_right _ (List.mem_singleton_self b))
  constructor
  · intro hring
    have hn := hi'.tracks.nodes_eq hready (Inv.perm_erase_append hb).length_eq
      (by rw [hlist]; exact hring)
    have hlast := congrArg List.getLast? hn
    rw [List.map_append, List.map_cons, List.map_nil, List.getLast?_concat, List.getLast?_map] at hlast
    obtain ⟨b', hb', hnode⟩ := Option.map_eq_some_iff.1 hlast.symm
    have hmem := List.mem_of_getLast? hb'
    rw [hb', hi.tracks.blk_layout.blk_addr_inj hmem hb (Nat.add_right_cancel hnode)]
  · intro hlast
    rw [(hi.erase_append_eq_iff hb).2 hlast] at hi'
    rw [← hlist]
    exact hi'.tracks.ring hready

/-- **A failed resize is atomic** exactly for the last block of the list. -/
theorem Reach.realloc_restores_iff (hr : Reach s h) (hb : b ∈ h.blocks) (hint : h.Intact b)
    {size : Nat} (hs : size ≠ 0) (file : Nat) (line : Int) {ans : Answer} (ha : ans.addr = none)
    (hk : Keeps s.list s.regions ans.mem) :
    ∃ s', mmemRealloc s b.data size file line ans = some (s', NULL) ∧
      (Restored s s' h ↔ h.blocks.getLast? = some b) := by
  have hi := hr.inv
  have hl : ans.Lawful s.list (otherRegions s.regions b.addr) (totalSize size) :=
    ⟨hk.mono (List.filter_subset_self _), fun a he => absurd (he.symm.trans ha) (Option.some_ne_none a)⟩
  have hcp : ans.Copies b.region (totalSize size) :=
    ⟨fun a he => absurd (he.symm.trans ha) (Option.some_ne_none a),
      fun _ m x hx => hk m x (.inr ⟨_, hi.tracks.mem_regions hb, hx⟩)⟩
  obtain ⟨s', he, hlist, hi', htable⟩ := hr.realloc_fails hb hint hs file line ha hl hcp
  have hiff := hi.ring_iff_last hb hi' hlist
  refine ⟨s', he, fun hres => hiff.1 hres.list, fun hlast => ?_⟩
  have hring := hiff.2 hlast
  rw [(hi.erase_append_eq_iff hb).2 hlast] at hi'
  refine ⟨hring, htable, hi'.tracks.header, fun b' hb' x hx => ?_,
    fun counts buf bufSize hn hs hlt hd => ?_⟩
  · rw [hi'.view b' hb' x hx, hi.view b' hb' x hx]
  · obtain ⟨s'', ret, n, hd, hs'', -, -, hret⟩ := hi'.dumpEntries counts hlt
      fun _ => by rw [hlist]; exact hd
    obtain ⟨rfl, rfl⟩ := hret hn hs
    exact ⟨s'', hd, hs''.infos⟩

theorem Reach.realloc_restores_two : ∃ (s s' : State) (h : Heap),
    h.blocks = [⟨8192, 10, 0, 1⟩, ⟨16384, 20, 0, 2⟩] ∧
    mmemRealloc s (blockData 16384) 30 0 3 ⟨none, id⟩ = some (s', NULL) ∧ Restored s s' h := by
  obtain ⟨s, h, hr, -, hb, -, hint⟩ := reach_two
  have hk : Keeps s.list s.regions (⟨none, id⟩ : Answer).mem := fun _ _ _ => rfl
  obtain ⟨s', he, hres⟩ := hr.realloc_restores_iff (by simp [hb]) hint (by decide : 30 ≠ 0) 0 3 rfl hk
  exact ⟨s, s', h, hb, he, hres.2 (by rw [hb]; rfl)⟩

/-- Two blocks, a resize of the first that the underlying allocator refuses, and the blocks as a dump
lists them before and after it. -/
def failedResize : Option (List BlockInfo × Nat × List BlockInfo) := do
  let (s, _) ← firstAlloc 10 1
  let (s, _) ← mmemAlloc s 20 0 2 ⟨some 16384, id⟩
  let (before, _) ← mmemDump s MMEM_DUMP_CMD_MMEM_BLOCK_INFO 2 32768 64
  let (s, r) ← mmemRealloc s (blockData 8192) 30 0 3 ⟨none, id⟩
  let (after, _) ← mmemDump s MMEM_DUMP_CMD_MMEM_BLOCK_INFO 2 32768 64
  return (readInfos before.mem 32768 2, r, readInfos after.mem 32768 2)

theorem realloc_reorders : failedResize =
    some ([⟨10, 74, 0, 1⟩, ⟨20, 84, 0, 2⟩], NULL, [⟨20, 84, 0, 2⟩, ⟨10, 74, 0, 1⟩]) := by
  decide +kernel

end FwkMlib.Mmem
