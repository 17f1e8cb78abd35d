import FwkMlib.Mmem.Debug
import FwkMlib.Lib.Intervals

/-!
# The blocks in memory

Where the parts of a block lie, and which bytes belong to the table.

* `Blk` : a live block, its region and the fields of its header (`Header`);
* `Layout` : the regions handed out and the table's list node do not overlap;
* `tableBytes` : the list node, the links and the header fields, the bytes the table depends on;
  `clientBytes` : the magics and the data of a block, the bytes a client can reach.
-/

namespace FwkMlib.Mmem
open FwkMlib.Lib FwkMlib.Mlist

/-- A live block: its address, and what its header says. -/
structure Blk where
  addr : Nat
  size : Nat
  file : Nat
  line : Int
  deriving DecidableEq

namespace Blk

def region (b : Blk) : Nat × Nat := (b.addr, b.size + 64)

def node (b : Blk) : Nat := blockNode b.addr

def data (b : Blk) : Nat := blockData b.addr

def tail (b : Blk) : Nat := b.data + b.size

end Blk

/-- The fields of the header of `b`, the magics and the links apart. -/
structure Header (m : Mem) (b : Blk) : Prop where
  size : blockSize m b.addr = b.size
  totalSize : blockTotalSize m b.addr = b.size + 64
  file : blockFile m b.addr = b.file % 2 ^ 64
  line : blockLine m b.addr = (b.line % 2 ^ 64).toNat

theorem Header.congr {m m' : Mem} {b : Blk} (h : Header m b)
    (hm : ∀ x, b.addr + 24 ≤ x → x < b.addr + 56 → m' x = m x) : Header m' b := by
  have hw : ∀ k, 24 ≤ k → k + 8 ≤ 56 → read64 m' (b.addr + k) = read64 m (b.addr + k) :=
    fun k hk hk' => read64_congr fun i hi => hm _ (by omega) (by omega)
  exact ⟨(hw 24 (by decide) (by decide)).trans h.size,
    (hw 32 (by decide) (by decide)).trans h.totalSize,
    (hw 40 (by decide) (by decide)).trans h.file, (hw 48 (by decide) (by decide)).trans h.line⟩

theorem header_blockUpdate {m : Mem} {b : Blk} (h : b.size + 64 < 2 ^ 64) :
    Header (blockUpdate m b.addr b.size (b.size + 64) b.file b.line) b := by
  have hline : (b.line % 2 ^ 64).toNat < 2 ^ 64 := by omega
  refine ⟨?_, ?_, ?_, ?_⟩ <;>
    simp only [blockSize, blockTotalSize, blockFile, blockLine, blockUpdate]
  · rw [read64_write64_of_disjoint (by omega), read64_write64_of_disjoint (by omega),
      read64_write64_of_disjoint (by omega), read64_write64, Nat.mod_eq_of_lt (by omega)]
  · rw [read64_write64_of_disjoint (by omega), read64_write64_of_disjoint (by omega),
      read64_write64, Nat.mod_eq_of_lt h]
  · rw [read64_write64_of_disjoint (by omega), read64_write64]
  · rw [read64_write64, Nat.mod_eq_of_lt hline]

theorem frame_blockUpdate (m : Mem) (block size total file : Nat) (line : Int) :
    Frame (bytesAt (block + 24) 32) m (blockUpdate m block size total file line) := by
  have hsub : ∀ k, k + 8 ≤ 32 → bytesAt (block + (24 + k)) 8 ⊆ bytesAt (block + 24) 32 := by
    intro k hk x hx
    rw [mem_bytesAt] at hx ⊢
    omega
  have f := fun (m : Mem) (k v : Nat) (hk : k + 8 ≤ 32) =>
    (Frame.write64 m (block + (24 + k)) v).mono (hsub k hk)
  exact (((f m 0 _ (by decide)).trans_self (f _ 8 _ (by decide))).trans_self
    (f _ 16 _ (by decide))).trans_self (f _ 24 _ (by decide))

/-! ## Regions -/

def InRegion (r : Nat × Nat) (x : Nat) : Prop := r.1 ≤ x ∧ x < r.1 + r.2

def Apart (r r' : Nat × Nat) : Prop := r.1 + r.2 ≤ r'.1 ∨ r'.1 + r'.2 ≤ r.1

theorem Apart.symm {r r' : Nat × Nat} (h : Apart r r') : Apart r' r := Or.symm h

theorem Apart.not_inRegion {r r' : Nat × Nat} {x : Nat} (h : Apart r r') (hx : InRegion r x) :
    ¬ InRegion r' x := by
  unfold Apart InRegion at *
  omega

instance : Std.Symm Apart := ⟨fun _ _ => Apart.symm⟩

structure Fresh (list : Nat) (rs : List (Nat × Nat)) (r : Nat × Nat) : Prop where
  pos : 0 < r.1
  bound : r.1 + r.2 ≤ 2 ^ 64
  apart_list : Apart (list, 16) r
  apart : ∀ r' ∈ rs, Apart r r'

/-- The regions handed out lie apart from each other and from the table's list node. -/
structure Layout (list : Nat) (rs : List (Nat × Nat)) : Prop where
  apart : rs.Pairwise Apart
  apart_list : ∀ r ∈ rs, Apart (list, 16) r
  pos : ∀ r ∈ rs, 0 < r.1
  len : ∀ r ∈ rs, 64 ≤ r.2
  bound : ∀ r ∈ rs, r.1 + r.2 ≤ 2 ^ 64
  list_bound : list + 16 ≤ 2 ^ 64

namespace Layout

variable {list : Nat} {rs rs' : List (Nat × Nat)} {r r' : Nat × Nat} {x : Nat}

theorem nil (h : list + 16 ≤ 2 ^ 64) : Layout list [] :=
  ⟨List.Pairwise.nil, by simp, by simp, by simp, by simp, h⟩

theorem perm (h : Layout list rs) (hp : rs.Perm rs') : Layout list rs' where
  apart := (hp.pairwise_iff Apart.symm).1 h.apart
  apart_list := fun r hr => h.apart_list r (hp.mem_iff.2 hr)
  pos := fun r hr => h.pos r (hp.mem_iff.2 hr)
  len := fun r hr => h.len r (hp.mem_iff.2 hr)
  bound := fun r hr => h.bound r (hp.mem_iff.2 hr)
  list_bound := h.list_bound

theorem sublist (h : Layout list rs) (hs : rs'.Sublist rs) : Layout list rs' where
  apart := h.apart.sublist hs
  apart_list := fun r hr => h.apart_list r (hs.subset hr)
  pos := fun r hr => h.pos r (hs.subset hr)
  len := fun r hr => h.len r (hs.subset hr)
  bound := fun r hr => h.bound r (hs.subset hr)
  list_bound := h.list_bound

theorem concat (h : Layout list rs) (hr : Fresh list rs r) (hlen : 64 ≤ r.2) :
    Layout list (rs ++ [r]) where
  apart := List.pairwise_append.2 ⟨h.apart, List.pairwise_singleton _ _, fun r' hr' r'' hr'' => by
    rw [List.mem_singleton.1 hr'']
    exact (hr.apart r' hr').symm⟩
  apart_list := List.forall_mem_append.2 ⟨h.apart_list, List.forall_mem_singleton.2 hr.apart_list⟩
  pos := List.forall_mem_append.2 ⟨h.pos, List.forall_mem_singleton.2 hr.pos⟩
  len := List.forall_mem_append.2 ⟨h.len, List.forall_mem_singleton.2 hlen⟩
  bound := List.forall_mem_append.2 ⟨h.bound, List.forall_mem_singleton.2 hr.bound⟩
  list_bound := h.list_bound

theorem eq_of_inRegion (h : Layout list rs) (hr : r ∈ rs) (hr' : r' ∈ rs) (hx : InRegion r x)
    (hx' : InRegion r' x) : r = r' := by
  by_contra hne
  exact (h.apart.forall hr hr' hne).not_inRegion hx hx'

theorem addr_inj (h : Layout list rs) (hr : r ∈ rs) (hr' : r' ∈ rs) (he : r.1 = r'.1) : r = r' := by
  have := h.len r hr
  have := h.len r' hr'
  refine h.eq_of_inRegion hr hr' (x := r.1) ?_ ?_ <;> unfold InRegion <;> omega

end Layout

/-- The regions handed out hold fewer bytes than there are addresses. -/
theorem Layout.sum_lt {list : Nat} {rs : List (Nat × Nat)} (h : Layout list rs) :
    (rs.map Prod.snd).sum < 2 ^ 64 :=
  sum_lt_of_beside (Nat.two_pow_pos 64) h.apart h.pos h.bound

/-! ## Bytes -/

/-- The bytes of `b` a client can reach: the head magic, the data and the guard. -/
def clientBytes (b : Blk) : Set Nat :=
  {x | InRegion b.region x ∧ (x < b.addr + 8 ∨ b.data ≤ x)}

def magicBytes (b : Blk) : Set Nat := bytesAt b.addr 8 ∪ bytesAt b.tail 8

/-- The bytes the table depends on: its list node, and the links and fields of the blocks. -/
def tableBytes (list : Nat) (bs : List Blk) : Set Nat :=
  {x | InRegion (list, 16) x ∨ ∃ b ∈ bs, b.addr + 8 ≤ x ∧ x < b.addr + 56}

section bytes

variable {list : Nat} {bs bs' : List Blk} {b b' : Blk} {x : Nat}

theorem tableBytes_mono (h : bs ⊆ bs') : tableBytes list bs ⊆ tableBytes list bs' := by
  rintro x (hx | ⟨b, hb, hx⟩)
  · exact .inl hx
  · exact .inr ⟨b, h hb, hx⟩

theorem magicBytes_subset : magicBytes b ⊆ clientBytes b := by
  intro x hx
  simp only [magicBytes, Set.mem_union, mem_bytesAt, Blk.tail, Blk.data, blockData,
    MMEM_BLOCK_SIZE] at hx
  simp only [clientBytes, Set.mem_ofPred_eq, InRegion, Blk.region, Blk.data, blockData,
    MMEM_BLOCK_SIZE]
  omega

theorem Layout.blk_eq (h : Layout list (bs.map Blk.region)) (hb : b ∈ bs) (hb' : b' ∈ bs)
    (hx : InRegion b.region x) (hx' : InRegion b'.region x) : b = b' := by
  by_contra hne
  have hp : bs.Pairwise fun b b' => Apart b.region b'.region := List.pairwise_map.1 h.apart
  have : Std.Symm fun b b' : Blk => Apart b.region b'.region := ⟨fun _ _ => Apart.symm⟩
  exact (hp.forall hb hb' hne).not_inRegion hx hx'

theorem Layout.blk_addr_inj (h : Layout list (bs.map Blk.region)) (hb : b ∈ bs) (hb' : b' ∈ bs)
    (he : b.addr = b'.addr) : b = b' := by
  have hr : b.region = b'.region :=
    h.addr_inj (List.mem_map_of_mem hb) (List.mem_map_of_mem hb') he
  refine h.blk_eq hb hb' (x := b.addr) ?_ ?_
  · exact ⟨le_rfl, by unfold Blk.region; omega⟩
  · rw [← hr]
    exact ⟨le_rfl, by unfold Blk.region; omega⟩

theorem Layout.not_tableBytes (h : Layout list (bs.map Blk.region)) (hb : b ∈ bs)
    (hx : x ∈ clientBytes b) : x ∉ tableBytes list bs := by
  rintro (hl | ⟨b', hb', hx'⟩)
  · exact (h.apart_list _ (List.mem_map_of_mem hb)).not_inRegion hl hx.1
  · have hr : InRegion b'.region x := by
      unfold InRegion Blk.region
      omega
    obtain rfl := h.blk_eq hb hb' hx.1 hr
    have := hx.2
    simp only [Blk.data, blockData, MMEM_BLOCK_SIZE] at this
    omega

def nodesOf (list : Nat) (bs : List Blk) : List Nat := list :: bs.map Blk.node

theorem linkBytes_subset : linkBytes (nodesOf list bs) ⊆ tableBytes list bs := by
  rintro x ⟨a, ha, hx⟩
  rcases List.mem_cons.1 ha with rfl | ha
  · exact .inl hx
  · obtain ⟨b, hb, rfl⟩ := List.mem_map.1 ha
    refine .inr ⟨b, hb, ?_⟩
    unfold Blk.node blockNode at hx
    omega

/-- The links of the blocks lie apart from everything else in a block. -/
theorem Layout.not_linkBytes (h : Layout list (bs.map Blk.region)) (hb : b ∈ bs)
    (hr : InRegion b.region x) (hx : x < b.addr + 8 ∨ b.addr + 24 ≤ x) :
    x ∉ linkBytes (nodesOf list bs) := by
  rintro ⟨a, ha, hxa⟩
  rcases List.mem_cons.1 ha with rfl | ha
  · exact (h.apart_list _ (List.mem_map_of_mem hb)).not_inRegion hxa hr
  · obtain ⟨b', hb', rfl⟩ := List.mem_map.1 ha
    unfold Blk.node blockNode at hxa
    have hr' : InRegion b'.region x := by
      unfold InRegion Blk.region
      omega
    obtain rfl := h.blk_eq hb hb' hr hr'
    omega

theorem Layout.nodes (h : Layout list (bs.map Blk.region)) : Nodes (nodesOf list bs) := by
  have hb : ∀ b ∈ bs, b.addr + (b.size + 64) ≤ 2 ^ 64 := fun b hb =>
    h.bound _ (List.mem_map_of_mem hb)
  have hl : ∀ b ∈ bs, list + 16 ≤ b.addr ∨ b.addr + (b.size + 64) ≤ list := fun b hb =>
    h.apart_list _ (List.mem_map_of_mem hb)
  have ha : ∀ b ∈ bs, ∀ b' ∈ bs, b.node ≠ b'.node →
      b.addr + (b.size + 64) ≤ b'.addr ∨ b'.addr + (b'.size + 64) ≤ b.addr := by
    intro b hb b' hb' hne
    refine h.apart.forall (List.mem_map_of_mem hb) (List.mem_map_of_mem hb') fun he => hne ?_
    exact congrArg (fun r : Nat × Nat => blockNode r.1) he
  refine ⟨fun x hx y hy hne => ?_, fun x hx => ?_⟩
  · rcases List.mem_cons.1 hx with hxl | hx' <;> rcases List.mem_cons.1 hy with hyl | hy'
    · exact absurd (hxl.trans hyl.symm) hne
    · obtain ⟨b, hb, rfl⟩ := List.mem_map.1 hy'
      have := hl b hb
      unfold Blk.node blockNode
      omega
    · obtain ⟨b, hb, rfl⟩ := List.mem_map.1 hx'
      have := hl b hb
      unfold Blk.node blockNode
      omega
    · obtain ⟨b, hb, rfl⟩ := List.mem_map.1 hx'
      obtain ⟨b', hb', rfl⟩ := List.mem_map.1 hy'
      have := ha b hb b' hb' hne
      unfold Blk.node blockNode
      omega
  · rcases List.mem_cons.1 hx with rfl | hx
    · have := h.list_bound
      omega
    · obtain ⟨b, hb', rfl⟩ := List.mem_map.1 hx
      have := hb b hb'
      unfold Blk.node blockNode
      omega

end bytes

end FwkMlib.Mmem
