import FwkMlib.Mmem.Layout

/-!
# What the table tracks

* `Tracks s bs spare` : the table's list is a ring through the blocks `bs`, its counters are theirs,
  and the underlying allocator has handed out their regions and the regions `spare`, which are in
  between two owners;
* `Tracks.blockTableGet`, `Tracks.blockAdd`, `Tracks.blockDel` : the table's three operations;
* `activate`, `retire` : a block enters or leaves the table, as all the operations do it.
-/

namespace FwkMlib.Mmem
open FwkMlib.Lib FwkMlib.Mlist

/-- The table holds the blocks `bs`; `spare` is outstanding and in no block. -/
structure Tracks (s : State) (bs : List Blk) (spare : List (Nat × Nat)) : Prop where
  regions : s.regions.Perm (bs.map Blk.region ++ spare)
  layout : Layout s.list s.regions
  ring : s.ready = true → Ring (Linked s.mem) (nodesOf s.list bs)
  fresh : s.ready = false → bs = []
  header : ∀ b ∈ bs, Header s.mem b
  count : s.table.count = bs.length % 2 ^ 64
  totalSize : s.table.totalSize = (bs.map fun b => b.size + 64).sum % 2 ^ 64
  activeSize : s.table.activeSize = (bs.map Blk.size).sum % 2 ^ 64

variable {s : State} {bs l₁ l₂ : List Blk} {b b' : Blk} {spare : List (Nat × Nat)} {m' : Mem}

namespace Tracks

theorem all_layout (h : Tracks s bs spare) : Layout s.list (bs.map Blk.region ++ spare) :=
  h.layout.perm h.regions

theorem blk_layout (h : Tracks s bs spare) : Layout s.list (bs.map Blk.region) :=
  h.all_layout.sublist (List.sublist_append_left _ _)

theorem mem_regions (h : Tracks s bs spare) (hb : b ∈ bs) : b.region ∈ s.regions :=
  h.regions.mem_iff.2 (List.mem_append_left spare (List.mem_map_of_mem hb))

theorem ready (h : Tracks s bs spare) (hb : b ∈ bs) : s.ready = true := by
  by_contra hr
  rw [h.fresh (Bool.not_eq_true _ ▸ hr)] at hb
  exact absurd hb List.not_mem_nil

theorem congr_mem (h : Tracks s bs spare) (hm : ∀ x ∈ tableBytes s.list bs, m' x = s.mem x) :
    Tracks { s with mem := m' } bs spare where
  regions := h.regions
  layout := h.layout
  ring := fun hr => ring_frame (h.ring hr)
    (fun x hx => hm x (linkBytes_subset (not_not.1 hx)))
    (disjoint_compl_right : Disjoint (linkBytes (nodesOf s.list bs)) (linkBytes (nodesOf s.list bs))ᶜ)
  fresh := h.fresh
  header := fun b hb => (h.header b hb).congr fun x hx hx' => hm x (.inr ⟨b, hb, by omega, hx'⟩)
  count := h.count
  totalSize := h.totalSize
  activeSize := h.activeSize

/-! ## The table's operations -/

theorem blockTableGet (h : Tracks s bs spare) :
    Tracks (blockTableGet s) bs spare ∧ (blockTableGet s).ready = true ∧
      ∀ x, x ∉ tableBytes s.list bs → (blockTableGet s).mem x = s.mem x := by
  unfold Mmem.blockTableGet
  split_ifs with hr
  · exact ⟨h, hr, fun _ _ => rfl⟩
  · have hbs : bs = [] := h.fresh (Bool.not_eq_true _ ▸ hr)
    subst hbs
    have hl := h.layout.list_bound
    refine ⟨⟨h.regions, h.layout, fun _ => ring_mlistInit (by omega) _, (fun he => nomatch he),
      by simp, h.count, rfl, rfl⟩, rfl, fun x hx => ?_⟩
    refine frame_mlistInit s.mem s.list x fun ⟨a, ha, hxa⟩ => hx (.inl ?_)
    rw [List.mem_singleton.1 ha] at hxa
    exact hxa

theorem spare_not_tableBytes {r : Nat × Nat} {x : Nat} (h : Tracks s bs (r :: spare))
    (hx : InRegion r x) : x ∉ tableBytes s.list bs := by
  have hl := h.all_layout
  rintro (hx' | ⟨b, hb, hx'⟩)
  · exact (hl.apart_list r (List.mem_append_right _ List.mem_cons_self)).not_inRegion hx' hx
  · have ha := (List.pairwise_append.1 hl.apart).2.2 _ (List.mem_map_of_mem hb) r
      List.mem_cons_self
    refine ha.symm.not_inRegion hx ?_
    unfold InRegion Blk.region
    omega

/-- `mlist_init` on the node of a block outside the table. -/
theorem mlistInit (h : Tracks s bs (b.region :: spare)) :
    Tracks { s with mem := mlistInit s.mem (blockNode b.addr) } bs (b.region :: spare) ∧
      ∀ x, ¬ (b.addr + 8 ≤ x ∧ x < b.addr + 24) →
        Mlist.mlistInit s.mem (blockNode b.addr) x = s.mem x := by
  have hm : ∀ x, ¬ (b.addr + 8 ≤ x ∧ x < b.addr + 24) →
      Mlist.mlistInit s.mem (blockNode b.addr) x = s.mem x := by
    refine fun x hx => frame_mlistInit _ _ x fun ⟨a, ha, hxa⟩ => hx ?_
    rw [List.mem_singleton.1 ha] at hxa
    unfold blockNode at hxa
    omega
  refine ⟨h.congr_mem fun x hx => hm x fun hx' => ?_, hm⟩
  refine h.spare_not_tableBytes ?_ hx
  unfold InRegion Blk.region
  omega

theorem node_not_mem (h : Tracks s bs (b.region :: spare)) : b.node ∉ nodesOf s.list bs := by
  have hl := h.all_layout
  have hb : b.region ∈ bs.map Blk.region ++ b.region :: spare :=
    List.mem_append_right _ List.mem_cons_self
  intro hn
  rcases List.mem_cons.1 hn with hn | hn
  · have := hl.apart_list _ hb
    unfold Apart Blk.region at this
    unfold Blk.node blockNode at hn
    omega
  · obtain ⟨b', hb', hn⟩ := List.mem_map.1 hn
    have ha := (List.pairwise_append.1 hl.apart).2.2 _ (List.mem_map_of_mem hb') b.region
      List.mem_cons_self
    unfold Apart Blk.region at ha
    unfold Blk.node blockNode at hn
    omega

theorem nodes_cons (h : Tracks s bs (b.region :: spare)) :
    Nodes (b.node :: nodesOf s.list bs) := by
  have hp : (bs.map Blk.region ++ b.region :: spare).Perm ((b :: bs).map Blk.region ++ spare) :=
    List.perm_middle
  have hl := (h.all_layout.perm hp).sublist (List.sublist_append_left _ _)
  refine hl.nodes.subset ?_
  exact List.Perm.subset (List.Perm.swap _ _ _)

theorem concat_layout (h : Tracks s bs (b.region :: spare)) :
    Layout s.list ((bs ++ [b]).map Blk.region) := by
  have hp := h.all_layout
  rw [List.append_cons] at hp
  simpa using hp.sublist (List.sublist_append_left _ _)

/-- **`_mmem_block_add`**: the block joins the list at its end. -/
theorem blockAdd (h : Tracks s bs (b.region :: spare)) (hr : s.ready = true)
    (hh : Header s.mem b) :
    Tracks (blockAdd s b.addr) (bs ++ [b]) spare ∧
      ∀ x, x ∉ linkBytes (nodesOf s.list (bs ++ [b])) → (Mmem.blockAdd s b.addr).mem x = s.mem x := by
  obtain ⟨hring, hframe⟩ := ring_mlistAddTail h.nodes_cons h.node_not_mem (h.ring hr)
  have hl := h.concat_layout
  have hkeep : ∀ x, x ∉ linkBytes (nodesOf s.list (bs ++ [b])) →
      (Mmem.blockAdd s b.addr).mem x = s.mem x := by
    refine fun x hx => hframe x fun hx' => hx (linkBytes_mono ?_ hx')
    intro a ha
    simp only [nodesOf, List.map_append, List.map_cons, List.map_nil, List.mem_cons,
      List.mem_append, List.not_mem_nil, or_false] at ha ⊢
    exact ha.elim (fun h => .inr (.inr h)) fun h => h.imp_right .inl
  have hhead : ∀ b' ∈ bs ++ [b], Header s.mem b' := fun b' hb' =>
    (List.mem_append.1 hb').elim (h.header b') fun hb' => List.mem_singleton.1 hb' ▸ hh
  have hhead' : ∀ b' ∈ bs ++ [b], Header (Mmem.blockAdd s b.addr).mem b' := by
    refine fun b' hb' => (hhead b' hb').congr fun x hx hx' => hkeep x ?_
    refine hl.not_linkBytes hb' ?_ (.inr hx)
    unfold InRegion Blk.region
    omega
  have hnew := hhead' b (List.mem_append_right bs (List.mem_singleton_self b))
  have htot : (Mmem.blockAdd s b.addr).table = s.table.add (b.size + 64) b.size := by
    rw [← hnew.size]
    nth_rewrite 1 [hnew.size]
    rw [← hnew.totalSize]
    rfl
  refine ⟨⟨?_, h.layout, fun _ => ?_, fun he => ?_, hhead', ?_, ?_, ?_⟩, hkeep⟩
  · refine h.regions.trans ?_
    rw [List.append_cons]
    simp
  · show Ring (Linked (mlistAddTail s.mem s.list b.node)) (nodesOf s.list (bs ++ [b]))
    simpa [nodesOf] using hring
  · exact absurd (hr.symm.trans he) (by decide)
  · rw [htot]
    simp only [Table.add, add64, h.count, List.length_append, List.length_singleton]
    omega
  · rw [htot]
    simp only [Table.add, add64, h.totalSize, List.map_append, List.map_cons, List.map_nil,
      List.sum_append, List.sum_cons, List.sum_nil]
    omega
  · rw [htot]
    simp only [Table.add, add64, h.activeSize, List.map_append, List.map_cons, List.map_nil,
      List.sum_append, List.sum_cons, List.sum_nil]
    omega

/-- **`_mmem_block_del`**: the block leaves the list, its region stays outstanding. -/
theorem blockDel (h : Tracks s (l₁ ++ b :: l₂) spare) :
    Tracks (blockDel s b.addr) (l₁ ++ l₂) (b.region :: spare) ∧
      ∀ x, x ∉ linkBytes (nodesOf s.list (l₁ ++ b :: l₂)) →
        (Mmem.blockDel s b.addr).mem x = s.mem x := by
  have hmem : b ∈ l₁ ++ b :: l₂ := List.mem_append_right l₁ List.mem_cons_self
  have hr := h.ready hmem
  have hl := h.blk_layout
  have hnodes : nodesOf s.list (l₁ ++ b :: l₂) =
      (s.list :: l₁.map Blk.node) ++ b.node :: l₂.map Blk.node := by
    simp [nodesOf]
  have hn := hl.nodes
  have hring₀ := h.ring hr
  rw [hnodes] at hn hring₀
  obtain ⟨hring, hframe⟩ := ring_mlistDel hn (by simp) hring₀
  rw [← hnodes] at hframe
  have hhead : ∀ b' ∈ l₁ ++ b :: l₂, Header (Mmem.blockDel s b.addr).mem b' := by
    refine fun b' hb' => (h.header b' hb').congr fun x hx hx' => hframe x ?_
    refine hl.not_linkBytes hb' ?_ (.inr hx)
    unfold InRegion Blk.region
    omega
  have hsize : b.size + 64 < 2 ^ 64 := by
    have hp := h.layout.pos _ (h.mem_regions hmem)
    have hb := h.layout.bound _ (h.mem_regions hmem)
    unfold Blk.region at hp hb
    omega
  have htot : (Mmem.blockDel s b.addr).table = s.table.del (b.size + 64) b.size := by
    rw [← (hhead b hmem).size]
    nth_rewrite 1 [(hhead b hmem).size]
    rw [← (hhead b hmem).totalSize]
    rfl
  refine ⟨⟨?_, h.layout, fun _ => ?_, fun he => ?_, fun b' hb' => hhead b' ?_, ?_, ?_, ?_⟩, hframe⟩
  · refine h.regions.trans ?_
    simp only [List.map_append, List.map_cons, List.append_assoc, List.cons_append]
    exact List.perm_middle.symm.append_left _
  · show Ring (Linked (mlistDel s.mem b.node)) (nodesOf s.list (l₁ ++ l₂))
    simpa [nodesOf] using hring
  · exact absurd (hr.symm.trans he) (by decide)
  · simp only [List.mem_append, List.mem_cons] at hb' ⊢
    exact hb'.imp_right .inr
  · rw [htot]
    simp only [Table.del, sub64, h.count, List.length_append, List.length_cons]
    omega
  · rw [htot]
    simp only [Table.del, sub64, h.totalSize, List.map_append, List.map_cons, List.sum_append,
      List.sum_cons]
    omega
  · rw [htot]
    simp only [Table.del, sub64, h.activeSize, List.map_append, List.map_cons, List.sum_append,
      List.sum_cons]
    omega

end Tracks

/-! ## Walking the list -/

def firstNode (list : Nat) : List Blk → Nat
  | [] => list
  | b :: _ => b.node

theorem Tracks.next_list (h : Tracks s bs spare) (hr : s.ready = true) :
    next s.mem s.list = firstNode s.list bs := by
  have hring := h.ring hr
  cases bs with
  | nil => exact hring.rel_self.1
  | cons b bs => exact hring.rel_head.1

theorem Tracks.next_node (h : Tracks s (l₁ ++ b :: l₂) spare) :
    next s.mem b.node = firstNode s.list l₂ := by
  have hring := h.ring (h.ready (List.mem_append_right l₁ List.mem_cons_self))
  cases l₂ with
  | nil =>
    have hr : Ring (Linked s.mem) (s.list :: l₁.map Blk.node ++ [b.node]) := by
      simpa [nodesOf] using hring
    exact hr.rel_last.1
  | cons b' l₂ =>
    have hr : Ring (Linked s.mem)
        ((s.list :: l₁.map Blk.node) ++ b.node :: b'.node :: l₂.map Blk.node) := by
      simpa [nodesOf] using hring
    exact hr.rel_middle.1

theorem Tracks.node_ne_list (h : Tracks s bs spare) (hb : b ∈ bs) : b.node ≠ s.list := by
  have := h.layout.apart_list _ (h.mem_regions hb)
  unfold Apart Blk.region at this
  unfold Blk.node blockNode
  omega

@[simp] theorem nodeBlock_node (b : Blk) : nodeBlock b.node = b.addr := Nat.add_sub_cancel b.addr 8

/-! ## Magics -/

section magic

variable {m : Mem} {hd tl : Nat}

theorem setBlockMagic_eq (h : Header m b) (hb : b.addr + (b.size + 64) ≤ 2 ^ 64) :
    setBlockMagic hd tl m b.addr = write64 (write64 m b.addr hd) b.tail tl := by
  have hs : blockSize (write64 m b.addr hd) b.addr = b.size := by
    rw [← h.size]
    exact read64_write64_of_disjoint (by omega)
  have ht : blockTail (write64 m b.addr hd) b.addr = b.tail := by
    unfold blockTail
    rw [hs]
    unfold Blk.tail Blk.data blockData MMEM_BLOCK_SIZE
    omega
  unfold setBlockMagic
  simp only [ht]

theorem frame_magic (m : Mem) (b : Blk) (hd tl : Nat) :
    Frame (magicBytes b) m (write64 (write64 m b.addr hd) b.tail tl) :=
  (Frame.write64 m b.addr hd).trans (Frame.write64 _ b.tail tl)

theorem Header.magic (h : Header m b) : Header (write64 (write64 m b.addr hd) b.tail tl) b := by
  refine h.congr fun x hx hx' => frame_magic m b hd tl x ?_
  simp only [magicBytes, Set.mem_union, mem_bytesAt, Blk.tail, Blk.data, blockData,
    MMEM_BLOCK_SIZE]
  omega

end magic

/-! ## Blocks entering and leaving the table -/

/-- What every acquiring operation does with a block whose header is filled in. -/
def activate (s : State) (block : Nat) : State :=
  let s := blockTableGet { s with mem := setBlockMagicActive s.mem block }
  blockAdd { s with mem := mlistInit s.mem (blockNode block) } block

/-- What every releasing operation does with a block before the underlying allocator gets it. -/
def retire (s : State) (block : Nat) : State :=
  blockDel (blockTableGet { s with mem := setBlockMagicFree s.mem block }) block

@[simp] theorem list_blockTableGet (s : State) : (blockTableGet s).list = s.list := by
  unfold blockTableGet
  split_ifs <;> rfl

@[simp] theorem regions_blockTableGet (s : State) : (blockTableGet s).regions = s.regions := by
  unfold blockTableGet
  split_ifs <;> rfl

@[simp] theorem calls_blockTableGet (s : State) : (blockTableGet s).calls = s.calls := by
  unfold blockTableGet
  split_ifs <;> rfl

@[simp] theorem locked_blockTableGet (s : State) : (blockTableGet s).locked = s.locked := by
  unfold blockTableGet
  split_ifs <;> rfl

theorem maxTotalSize_blockTableGet (s : State) :
    (blockTableGet s).table.maxTotalSize = s.table.maxTotalSize := by
  unfold blockTableGet
  split_ifs <;> rfl

theorem maxActiveSize_blockTableGet (s : State) :
    (blockTableGet s).table.maxActiveSize = s.table.maxActiveSize := by
  unfold blockTableGet
  split_ifs <;> rfl

theorem Table.maxTotalSize_add (t : Table) (total size : Nat) :
    (t.add total size).maxTotalSize = max t.maxTotalSize (t.add total size).totalSize := by
  unfold Table.add
  simp only
  split_ifs <;> omega

theorem Table.maxActiveSize_add (t : Table) (total size : Nat) :
    (t.add total size).maxActiveSize = max t.maxActiveSize (t.add total size).activeSize := by
  unfold Table.add
  simp only
  split_ifs <;> omega

theorem maxTotalSize_activate (s : State) (a : Nat) :
    (activate s a).table.maxTotalSize =
      max s.table.maxTotalSize (activate s a).table.totalSize :=
  (Table.maxTotalSize_add _ _ _).trans (congrArg (max · _) (maxTotalSize_blockTableGet _))

theorem maxActiveSize_activate (s : State) (a : Nat) :
    (activate s a).table.maxActiveSize =
      max s.table.maxActiveSize (activate s a).table.activeSize :=
  (Table.maxActiveSize_add _ _ _).trans (congrArg (max · _) (maxActiveSize_blockTableGet _))

theorem maxTotalSize_retire (s : State) (a : Nat) :
    (retire s a).table.maxTotalSize = s.table.maxTotalSize :=
  maxTotalSize_blockTableGet _

theorem maxActiveSize_retire (s : State) (a : Nat) :
    (retire s a).table.maxActiveSize = s.table.maxActiveSize :=
  maxActiveSize_blockTableGet _

theorem blockTableGet_eq (h : s.ready = true) : blockTableGet s = s := if_pos h

@[simp] theorem list_activate (s : State) (a : Nat) : (activate s a).list = s.list :=
  list_blockTableGet _

@[simp] theorem regions_activate (s : State) (a : Nat) : (activate s a).regions = s.regions :=
  regions_blockTableGet _

@[simp] theorem calls_activate (s : State) (a : Nat) : (activate s a).calls = s.calls :=
  calls_blockTableGet _

@[simp] theorem list_retire (s : State) (a : Nat) : (retire s a).list = s.list :=
  list_blockTableGet _

@[simp] theorem regions_retire (s : State) (a : Nat) : (retire s a).regions = s.regions :=
  regions_blockTableGet _

@[simp] theorem calls_retire (s : State) (a : Nat) : (retire s a).calls = s.calls :=
  calls_blockTableGet _

@[simp] theorem ready_blockTableGet (s : State) : (blockTableGet s).ready = true := by
  unfold blockTableGet
  split_ifs with hr
  · exact hr
  · rfl

@[simp] theorem ready_retire (s : State) (a : Nat) : (retire s a).ready = true :=
  ready_blockTableGet _

@[simp] theorem locked_retire (s : State) (a : Nat) : (retire s a).locked = s.locked :=
  locked_blockTableGet _

/-- The memory with the magics of an active block. -/
def activeMem (m : Mem) (b : Blk) : Mem :=
  write64 (write64 m b.addr MMEM_BLOCK_ACTIVE_HEAD_MAGIC) b.tail MMEM_BLOCK_ACTIVE_TAIL_MAGIC

/-- The memory with the magics of a released block. -/
def freeMem (m : Mem) (b : Blk) : Mem :=
  write64 (write64 m b.addr MMEM_BLOCK_FREE_HEAD_MAGIC) b.tail MMEM_BLOCK_FREE_TAIL_MAGIC

/-- With the table set up, a block leaves it in two steps. -/
theorem retire_eq {a : Nat} (hr : s.ready = true) :
    retire s a = blockDel { s with mem := setBlockMagicFree s.mem a } a := by
  unfold retire
  rw [blockTableGet_eq]
  exact hr

section magicMem

variable {m m' : Mem} {x : Nat}

/-- The magics hide what was there before. -/
theorem activeMem_congr (h : x ∉ magicBytes b → m' x = m x) :
    activeMem m' b x = activeMem m b x :=
  write64_congr fun hx => write64_congr fun hx' => h fun hm => hm.elim hx' hx

theorem activeMem_of_not (m : Mem) (h : x ∉ magicBytes b) : activeMem m b x = m x :=
  frame_magic m b _ _ x h

theorem freeMem_of_not (m : Mem) (h : x ∉ magicBytes b) : freeMem m b x = m x :=
  frame_magic m b _ _ x h

theorem readBytes_activeMem_head (m : Mem) (b : Blk) :
    readBytes (activeMem m b) b.addr 8 = bytesLE 8 MMEM_BLOCK_ACTIVE_HEAD_MAGIC := by
  unfold activeMem
  rw [readBytes_write64_of_disjoint, readBytes_write64]
  unfold Blk.tail Blk.data blockData MMEM_BLOCK_SIZE
  omega

theorem readBytes_activeMem_tail (m : Mem) (b : Blk) :
    readBytes (activeMem m b) b.tail 8 = bytesLE 8 MMEM_BLOCK_ACTIVE_TAIL_MAGIC :=
  readBytes_write64 _ _ _

theorem readBytes_freeMem_head (m : Mem) (b : Blk) :
    readBytes (freeMem m b) b.addr 8 = bytesLE 8 MMEM_BLOCK_FREE_HEAD_MAGIC := by
  unfold freeMem
  rw [readBytes_write64_of_disjoint, readBytes_write64]
  unfold Blk.tail Blk.data blockData MMEM_BLOCK_SIZE
  omega

end magicMem

theorem Tracks.activate (h : Tracks s bs (b.region :: spare)) (hh : Header s.mem b) :
    Tracks (activate s b.addr) (bs ++ [b]) spare ∧
      ∀ x, x ∉ tableBytes s.list (bs ++ [b]) →
        (Mmem.activate s b.addr).mem x = activeMem s.mem b x := by
  have hb : b.addr + (b.size + 64) ≤ 2 ^ 64 :=
    h.all_layout.bound _ (List.mem_append_right _ List.mem_cons_self)
  have hmagic : setBlockMagicActive s.mem b.addr = activeMem s.mem b := setBlockMagic_eq hh hb
  have h₁ : Tracks { s with mem := setBlockMagicActive s.mem b.addr } bs (b.region :: spare) := by
    refine h.congr_mem fun x hx => ?_
    rw [hmagic]
    refine frame_magic _ _ _ _ x fun hx' => ?_
    exact h.spare_not_tableBytes (magicBytes_subset hx').1 hx
  obtain ⟨h₂, hr₂, hm₂⟩ := h₁.blockTableGet
  obtain ⟨h₃, hm₃⟩ := h₂.mlistInit
  have hhead : Header (Mlist.mlistInit (Mmem.blockTableGet { s with
      mem := setBlockMagicActive s.mem b.addr }).mem (blockNode b.addr)) b := by
    have hm : Header (setBlockMagicActive s.mem b.addr) b := hmagic ▸ hh.magic
    refine hm.congr fun x hx hx' => (hm₃ x (by omega)).trans (hm₂ x ?_)
    refine h₁.spare_not_tableBytes ?_
    unfold InRegion Blk.region
    omega
  obtain ⟨h₄, hm₄⟩ := h₃.blockAdd hr₂ hhead
  refine ⟨h₄, fun x hx => ?_⟩
  have hlink : x ∉ linkBytes (nodesOf s.list (bs ++ [b])) := fun hx' => hx (linkBytes_subset hx')
  rw [Mmem.activate, hm₄ x (by simpa using hlink), hm₃ x, hm₂ x, hmagic]
  · exact fun hx' => hx (tableBytes_mono (List.subset_append_left bs [b]) hx')
  · exact fun hx' => hx (.inr ⟨b, List.mem_append_right _ (List.mem_singleton_self b), by omega⟩)

theorem Tracks.retire (h : Tracks s (l₁ ++ b :: l₂) spare) :
    Tracks (retire s b.addr) (l₁ ++ l₂) (b.region :: spare) ∧ Header (Mmem.retire s b.addr).mem b ∧
      ∀ x, x ∉ tableBytes s.list (l₁ ++ b :: l₂) →
        (Mmem.retire s b.addr).mem x = freeMem s.mem b x := by
  have hmem : b ∈ l₁ ++ b :: l₂ := List.mem_append_right l₁ List.mem_cons_self
  have hb : b.addr + (b.size + 64) ≤ 2 ^ 64 := h.layout.bound _ (h.mem_regions hmem)
  have hh := h.header b hmem
  have hmagic : setBlockMagicFree s.mem b.addr = freeMem s.mem b := setBlockMagic_eq hh hb
  have h₁ : Tracks { s with mem := setBlockMagicFree s.mem b.addr } (l₁ ++ b :: l₂) spare := by
    refine h.congr_mem fun x hx => ?_
    rw [hmagic]
    refine frame_magic _ _ _ _ x fun hx' => ?_
    exact h.blk_layout.not_tableBytes hmem (magicBytes_subset hx') hx
  obtain ⟨h₂, hm₂⟩ := h₁.blockDel
  rw [retire_eq (h.ready hmem)]
  refine ⟨h₂, ?_, fun x hx => ?_⟩
  · refine (h₁.header b hmem).congr fun x hx hx' => hm₂ x ?_
    refine h₁.blk_layout.not_linkBytes hmem ?_ (.inr hx)
    unfold InRegion Blk.region
    omega
  · rw [hm₂ x fun hx' => hx (linkBytes_subset hx'), hmagic]

end FwkMlib.Mmem
