import FwkMlib.Mmem.Tracks

/-!
# The underlying allocator

What is asked of the allocator under the module, and what its calls do to the table.

* `Keeps` : a call touches no byte of the regions that stay with their owners, nor of the table's
  list node;
* `Answer.Lawful` : a fresh region, or a failure, of an allocating call;
  `Answer.Zeroed`, `Answer.Copies` : what `calloc` and `realloc` add to it;
* `Tracks.realAlloc`, `Tracks.realFree`, `Tracks.realRealloc` : the table through a call;
* `install` : an acquiring operation from the allocator's answer to the end.
-/

namespace FwkMlib.Mmem
open FwkMlib.Lib FwkMlib.Mlist

/-- The bytes of the regions `rs` and of the table's list node. -/
def ownedBytes (list : Nat) (rs : List (Nat × Nat)) : Set Nat :=
  {x | InRegion (list, 16) x ∨ ∃ r ∈ rs, InRegion r x}

def Keeps (list : Nat) (rs : List (Nat × Nat)) (f : Mem → Mem) : Prop :=
  ∀ m, ∀ x ∈ ownedBytes list rs, f m x = m x

/-- An answer to a request for `n` bytes, the regions `rs` being outstanding. -/
structure Answer.Lawful (ans : Answer) (list : Nat) (rs : List (Nat × Nat)) (n : Nat) : Prop where
  keeps : Keeps list rs ans.mem
  fresh : ∀ a, ans.addr = some a → Fresh list rs (a, n)

def Answer.Zeroed (ans : Answer) (n : Nat) : Prop :=
  ∀ a, ans.addr = some a → ∀ m, ∀ i < n, ans.mem m (a + i) = 0

/-- `realloc` of the region `r` moves the common prefix, a failure leaves the region as it was. -/
structure Answer.Copies (ans : Answer) (r : Nat × Nat) (n : Nat) : Prop where
  moved : ∀ a, ans.addr = some a → ∀ m, ∀ i < min r.2 n, ans.mem m (a + i) = m (r.1 + i)
  kept : ans.addr = none → ∀ m x, InRegion r x → ans.mem m x = m x

variable {s : State} {bs : List Blk} {b : Blk} {list n a : Nat} {rs rs' : List (Nat × Nat)}
  {f : Mem → Mem} {ans : Answer}

theorem realFree_some (f : Mem → Mem) (ha : a ∈ s.regions.map Prod.fst) :
    ∃ t, realFree s a f = some t ∧ t.locked = s.locked ∧ t.calls = s.calls ++ [.free a] ∧
      t.regions = otherRegions s.regions a :=
  ⟨_, if_pos ha, rfl, rfl, rfl⟩

theorem realRealloc_some (n : Nat) (ans : Answer) (ha : a ∈ s.regions.map Prod.fst) :
    ∃ t, realRealloc s a n ans = some t ∧ t.locked = s.locked ∧ t.ready = s.ready ∧
      t.calls = s.calls ++ [.realloc a n] ∧
      ∀ a', ans.addr = some a' → t.regions = otherRegions s.regions a ++ [(a', n)] :=
  ⟨_, if_pos ha, rfl, rfl, rfl, fun a' ha' => by simp only [ha']⟩

theorem ownedBytes_mono (h : rs ⊆ rs') : ownedBytes list rs ⊆ ownedBytes list rs' := by
  rintro x (hx | ⟨r, hr, hx⟩)
  · exact .inl hx
  · exact .inr ⟨r, h hr, hx⟩

theorem Keeps.mono (h : Keeps list rs' f) (hs : rs ⊆ rs') : Keeps list rs f :=
  fun m x hx => h m x (ownedBytes_mono hs hx)

theorem tableBytes_subset : tableBytes list bs ⊆ ownedBytes list (bs.map Blk.region) := by
  rintro x (hx | ⟨b, hb, hx⟩)
  · exact .inl hx
  · refine .inr ⟨b.region, List.mem_map_of_mem hb, ?_⟩
    unfold InRegion Blk.region
    omega

theorem clientBytes_subset (hb : b ∈ bs) : clientBytes b ⊆ ownedBytes list (bs.map Blk.region) :=
  fun _ hx => .inr ⟨b.region, List.mem_map_of_mem hb, hx.1⟩

namespace Tracks

variable {call : RealCall}

theorem realAlloc_none (h : Tracks s bs []) (ha : ans.addr = none)
    (hk : Keeps s.list s.regions ans.mem) : Tracks (realAlloc s call n ans) bs [] := by
  have h' : Tracks { s with mem := ans.mem s.mem } bs [] := by
    refine h.congr_mem fun x hx => hk s.mem x ?_
    refine ownedBytes_mono (fun r hr => ?_) (tableBytes_subset hx)
    exact h.regions.mem_iff.2 (List.mem_append_left [] hr)
  unfold Mmem.realAlloc
  rw [ha]
  exact ⟨h'.regions, h'.layout, h'.ring, h'.fresh, h'.header, h'.count, h'.totalSize, h'.activeSize⟩

theorem realAlloc (h : Tracks s bs []) (ha : ans.addr = some a) (hn : 64 ≤ n)
    (hl : ans.Lawful s.list s.regions n) : Tracks (realAlloc s call n ans) bs [(a, n)] := by
  have h' : Tracks { s with mem := ans.mem s.mem } bs [] := by
    refine h.congr_mem fun x hx => hl.keeps s.mem x ?_
    refine ownedBytes_mono (fun r hr => ?_) (tableBytes_subset hx)
    exact h.regions.mem_iff.2 (List.mem_append_left [] hr)
  have hp : s.regions.Perm (bs.map Blk.region) := by simpa using h.regions
  unfold Mmem.realAlloc
  rw [ha]
  exact ⟨hp.append_right _, h.layout.concat (hl.fresh a ha) hn, h'.ring, h'.fresh, h'.header,
    h'.count, h'.totalSize, h'.activeSize⟩

/-- The other regions are those of the blocks. -/
theorem otherRegions (h : Tracks s bs [b.region]) :
    (otherRegions s.regions b.addr).Perm (bs.map Blk.region) := by
  have hl := h.all_layout
  have hp := h.regions.filter fun r => decide (r.1 ≠ b.addr)
  have h₁ : (bs.map Blk.region).filter (fun r => decide (r.1 ≠ b.addr)) = bs.map Blk.region := by
    refine List.filter_eq_self.2 fun r hr => decide_eq_true fun he => ?_
    have ha := (List.pairwise_append.1 hl.apart).2.2 r hr b.region (List.mem_singleton_self _)
    have := hl.len r (List.mem_append_left _ hr)
    unfold Apart Blk.region at ha
    omega
  have h₂ : [b.region].filter (fun r => decide (r.1 ≠ b.addr)) = [] :=
    List.filter_eq_nil_iff.2 fun r hr => by simp [List.mem_singleton.1 hr, Blk.region]
  rwa [List.filter_append, h₁, h₂, List.append_nil] at hp

theorem mem_fst (h : Tracks s bs [b.region]) : b.addr ∈ s.regions.map Prod.fst :=
  List.mem_map.2 ⟨b.region, h.regions.mem_iff.2 (List.mem_append_right _ (List.mem_singleton_self _)),
    rfl⟩

theorem keepsOthers (h : Tracks s bs [b.region])
    (hk : Keeps s.list (Mmem.otherRegions s.regions b.addr) f) :
    Keeps s.list (bs.map Blk.region) f :=
  hk.mono fun _ hr => h.otherRegions.mem_iff.2 hr

theorem realFree (h : Tracks s bs [b.region])
    (hk : Keeps s.list (Mmem.otherRegions s.regions b.addr) f) :
    ∃ s', realFree s b.addr f = some s' ∧ Tracks s' bs [] ∧ s'.mem = f s.mem ∧
      s'.list = s.list ∧ s'.locked = s.locked ∧ s'.ready = s.ready ∧
      s'.table = s.table ∧ s'.calls = s.calls ++ [.free b.addr] := by
  have h' := h.congr_mem fun x hx => h.keepsOthers hk s.mem x (tableBytes_subset hx)
  refine ⟨_, if_pos h.mem_fst, ⟨?_, ?_, h'.ring, h'.fresh, h'.header, h'.count, h'.totalSize,
    h'.activeSize⟩, rfl, rfl, rfl, rfl, rfl, rfl⟩
  · simpa using h.otherRegions
  · exact h.layout.sublist (List.filter_sublist)

theorem realRealloc_none (h : Tracks s bs [b.region]) (ha : ans.addr = none)
    (hk : Keeps s.list (Mmem.otherRegions s.regions b.addr) ans.mem) :
    ∃ s', realRealloc s b.addr n ans = some s' ∧ Tracks s' bs [b.region] ∧
      s'.mem = ans.mem s.mem ∧ s'.list = s.list ∧ s'.locked = s.locked ∧ s'.ready = s.ready ∧
      s'.table = s.table ∧ s'.calls = s.calls ++ [.realloc b.addr n] := by
  have h' := h.congr_mem fun x hx => h.keepsOthers hk s.mem x (tableBytes_subset hx)
  refine ⟨_, if_pos h.mem_fst, ?_, rfl, rfl, rfl, rfl, rfl, rfl⟩
  rw [ha]
  exact ⟨h'.regions, h'.layout, h'.ring, h'.fresh, h'.header, h'.count, h'.totalSize, h'.activeSize⟩

theorem realRealloc (h : Tracks s bs [b.region]) (ha : ans.addr = some a) (hn : 64 ≤ n)
    (hl : ans.Lawful s.list (Mmem.otherRegions s.regions b.addr) n) :
    ∃ s', realRealloc s b.addr n ans = some s' ∧ Tracks s' bs [(a, n)] ∧
      s'.mem = ans.mem s.mem ∧ s'.list = s.list ∧ s'.locked = s.locked ∧ s'.ready = s.ready ∧
      s'.table = s.table ∧ s'.calls = s.calls ++ [.realloc b.addr n] := by
  have h' := h.congr_mem fun x hx => h.keepsOthers hl.keeps s.mem x (tableBytes_subset hx)
  refine ⟨_, if_pos h.mem_fst, ?_, rfl, rfl, rfl, rfl, rfl, rfl⟩
  rw [ha]
  refine ⟨h.otherRegions.append_right _, ?_, h'.ring, h'.fresh, h'.header, h'.count, h'.totalSize,
    h'.activeSize⟩
  exact (h.layout.sublist List.filter_sublist).concat (hl.fresh a ha) hn

end Tracks

/-! ## From the answer to the end of the operation -/

/-- The header is filled in and the block enters the table. -/
def install (s : State) (block size total file : Nat) (line : Int) : State :=
  activate { s with mem := blockUpdate s.mem block size total file line } block

section install

variable (s : State) (block size total file : Nat) (line : Int)

@[simp] theorem list_install : (install s block size total file line).list = s.list :=
  list_activate _ _

@[simp] theorem regions_install : (install s block size total file line).regions = s.regions :=
  regions_activate _ _

@[simp] theorem calls_install : (install s block size total file line).calls = s.calls :=
  calls_activate _ _

end install

theorem Tracks.install (h : Tracks s bs [b.region]) :
    Tracks (install s b.addr b.size (b.size + 64) b.file b.line) (bs ++ [b]) [] ∧
      ∀ x, x ∉ tableBytes s.list (bs ++ [b]) →
        (Mmem.install s b.addr b.size (b.size + 64) b.file b.line).mem x =
          activeMem s.mem b x := by
  have hmem : b.region ∈ bs.map Blk.region ++ [b.region] :=
    List.mem_append_right _ (List.mem_singleton_self _)
  have hsize : b.size + 64 < 2 ^ 64 := by
    have hp := h.all_layout.pos _ hmem
    have hb := h.all_layout.bound _ hmem
    unfold Blk.region at hp hb
    omega
  have hup := frame_blockUpdate s.mem b.addr b.size (b.size + 64) b.file b.line
  have h₁ : Tracks { s with mem := blockUpdate s.mem b.addr b.size (b.size + 64) b.file b.line }
      bs [b.region] := by
    refine h.congr_mem fun x hx => hup x fun hx' => ?_
    refine h.spare_not_tableBytes ?_ hx
    rw [mem_bytesAt] at hx'
    unfold InRegion Blk.region
    omega
  obtain ⟨h₂, hm₂⟩ := h₁.activate (header_blockUpdate hsize)
  refine ⟨h₂, fun x hx => (hm₂ x hx).trans ?_⟩
  have hx' : x ∉ bytesAt (b.addr + 24) 32 := by
    refine fun hx' => hx (.inr ⟨b, List.mem_append_right _ (List.mem_singleton_self b), ?_⟩)
    rw [mem_bytesAt] at hx'
    omega
  unfold activeMem write64
  simp only [writeBytes_apply, hup x hx']

end FwkMlib.Mmem
