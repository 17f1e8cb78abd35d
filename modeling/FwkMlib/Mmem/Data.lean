import FwkMlib.Mmem.Run

/-!
# Client data

The module and the underlying allocator leave the data of the live blocks alone.

* `Heap.view_step` : a call that is no store of a client changes no data of a block that stays live;
* `Reach.dataSafe` : in every reachable state the data are what the clients last stored there,
  `mmem_calloc` gives out zeros and `mmem_realloc` keeps the common prefix.
-/

namespace FwkMlib.Mmem
open FwkMlib.Lib FwkMlib.Mlist

variable {s s' : State} {h : Heap} {b b' : Blk} {c : Call} {x : Nat}

theorem Heap.place_view_of_not (h : Heap) (bytes : Nat → UInt8) (hx : ¬ InRegion b.region x) :
    (h.place b bytes).view x = h.view x := by
  have hm : x ∉ magicBytes b := fun hm => hx (magicBytes_subset hm).1
  have hd : ¬ (b.data ≤ x ∧ x < b.tail) := fun hd =>
    hx (mem_clientBytes_of_data hd.1 hd.2).1.1
  rw [Heap.place, activeMem_of_not _ hm]
  exact if_neg hd

theorem Heap.place_view_data (h : Heap) (bytes : Nat → UInt8) (hx : b.data ≤ x)
    (hx' : x < b.tail) : (h.place b bytes).view x = bytes x := by
  rw [Heap.place, activeMem_of_not _ (mem_clientBytes_of_data hx hx').2]
  exact if_pos ⟨hx, hx'⟩

theorem Blk.data_add {i : Nat} (hi : i < b.size) : b.data ≤ b.data + i ∧ b.data + i < b.tail := by
  unfold Blk.tail
  omega

theorem Inv.data (hi : Inv s h) (hb : b ∈ h.blocks) {i : Nat} (hlt : i < b.size) :
    s.mem (b.data + i) = h.view (b.data + i) := by
  obtain ⟨hx, hx'⟩ := Blk.data_add hlt
  exact hi.view b hb _ (mem_clientBytes_of_data hx hx').1

theorem Inv.not_inRegion {bytes : Nat → UInt8} (hi : Inv s' (h.place b bytes)) (hb : b' ∈ h.blocks)
    (hx : InRegion b'.region x) : ¬ InRegion b.region x := by
  have ha := hi.tracks.blk_layout.apart
  rw [Heap.place, List.map_append, List.pairwise_append] at ha
  exact (ha.2.2 _ (List.mem_map_of_mem hb) b.region (by simp)).not_inRegion hx

/-- The calls of the module that write no byte on behalf of the client. -/
def Call.Silent : Call → Prop
  | .dump .. => False
  | .write .. => False
  | _ => True

section view

variable {size file addr : Nat} {line : Int} {ans : Answer} (hb : b ∈ h.blocks)

include hb

theorem Heap.alloc_view (hi : Inv s' (h.alloc size file line ans s'.mem))
    (hr : InRegion b.region x) : (h.alloc size file line ans s'.mem).view x = h.view x := by
  unfold Heap.alloc at hi ⊢
  split_ifs at hi ⊢
  · rfl
  · cases ha : ans.addr with
    | none => rfl
    | some a =>
      rw [ha] at hi
      exact h.place_view_of_not _ (hi.not_inRegion hb hr)

theorem Heap.calloc_view {counts itemSize : Nat}
    (hi : Inv s' (h.calloc counts itemSize file line ans)) (hr : InRegion b.region x) :
    (h.calloc counts itemSize file line ans).view x = h.view x := by
  unfold Heap.calloc at hi ⊢
  split_ifs at hi ⊢
  · rfl
  · cases ha : ans.addr with
    | none => rfl
    | some a =>
      rw [ha] at hi
      exact h.place_view_of_not _ (hi.not_inRegion hb hr)

omit hb in
theorem Heap.free_view (h : Heap) (addr : Nat) : (h.free addr).view = h.view := by
  unfold Heap.free
  cases h.find addr with
  | none => rfl
  | some b₁ =>
    show (if h.Intact b₁ then h.release b₁ else h).view = h.view
    split_ifs <;> rfl

theorem Heap.realloc_view (hi : Inv s' (h.realloc addr size file line ans s'.mem))
    (hb' : b ∈ (h.realloc addr size file line ans s'.mem).blocks) (hx : b.data ≤ x)
    (hx' : x < b.tail) : (h.realloc addr size file line ans s'.mem).view x = h.view x := by
  have hr : InRegion b.region x := (mem_clientBytes_of_data hx hx').1.1
  unfold Heap.realloc at hi hb' ⊢
  split_ifs at hi hb' ⊢
  · exact Heap.alloc_view hb hi hr
  · rw [Heap.free_view]
  · cases hf : h.find addr with
    | none => rfl
    | some b₁ =>
      rw [hf] at hi hb'
      simp only at hi hb' ⊢
      split_ifs at hi hb' ⊢
      · cases ha : ans.addr with
        | none => rfl
        | some a =>
          rw [ha] at hi hb'
          simp only at hi hb' ⊢
          by_cases hne : b = b₁
          · rcases List.mem_append.1 hb' with hmem | hmem
            · exact (h.release b₁).place_view_of_not _ (hi.not_inRegion hmem hr)
            · -- the block was resized to what it was
              have heq := List.mem_singleton.1 hmem
              subst hne
              rw [← heq, Heap.place_view_data _ _ hx hx', Heap.resized,
                if_pos (show x < b.data + b.size from hx'), Nat.add_sub_cancel' hx]
          · exact (h.release b₁).place_view_of_not _
              (hi.not_inRegion ((List.mem_erase_of_ne hne).2 hb) hr)
      · rfl

/-- **No operation touches the data of a block that stays live.** -/
theorem Heap.view_step (hi : Inv s' (h.step c s'.mem)) (hc : c.Silent)
    (hb' : b ∈ (h.step c s'.mem).blocks) (hx : b.data ≤ x) (hx' : x < b.tail) :
    (h.step c s'.mem).view x = h.view x := by
  have hr : InRegion b.region x := (mem_clientBytes_of_data hx hx').1.1
  cases c with
  | alloc size file line ans => exact Heap.alloc_view hb hi hr
  | calloc counts itemSize file line ans => exact Heap.calloc_view hb hi hr
  | realloc addr size file line ans => exact Heap.realloc_view hb hi hb' hx hx'
  | free addr f => exact congrFun (congrArg Mem.byte (h.free_view addr)) x
  | freeAll f => exact absurd hb' List.not_mem_nil
  | dump cmd counts buf bufSize => exact hc.elim
  | write y v => exact hc.elim

end view

/-! ## In every reachable state -/

/-- The data of the live blocks, now and over the next call. -/
structure DataSafe (s : State) (h : Heap) : Prop where
  view : ∀ b ∈ h.blocks, ∀ i < b.size, s.mem (b.data + i) = h.view (b.data + i)
  kept : ∀ c s', Allowed s h c → exec s c = some s' → c.Silent →
    ∀ b ∈ h.blocks, b ∈ (h.step c s'.mem).blocks →
      ∀ i < b.size, s'.mem (b.data + i) = s.mem (b.data + i)
  calloc : ∀ counts itemSize file line ans s' a, CallocOk s counts itemSize ans →
    mmemCalloc s counts itemSize file line ans = some (s', a) → a ≠ NULL →
      ∀ i < counts * itemSize % 2 ^ 64, s'.mem (a + i) = 0
  resized : ∀ b ∈ h.blocks, ∀ size file line ans s' a, ReallocOk s h b.data size ans →
    mmemRealloc s b.data size file line ans = some (s', a) → a ≠ NULL →
      ∀ i < min b.size size, s'.mem (a + i) = s.mem (b.data + i)
  refused : ∀ b ∈ h.blocks, ∀ size file line ans s', ReallocOk s h b.data size ans →
    mmemRealloc s b.data size file line ans = some (s', NULL) → size ≠ 0 →
      ∀ i < b.size, s'.mem (b.data + i) = s.mem (b.data + i)

section calls

variable {size file a : Nat} {line : Int} {ans : Answer}

theorem Inv.calloc_zeros {counts itemSize : Nat} (hi : Inv s h)
    (ok : CallocOk s counts itemSize ans)
    (he : mmemCalloc s counts itemSize file line ans = some (s', a)) (hne : a ≠ NULL) :
    ∀ i < counts * itemSize % 2 ^ 64, s'.mem (a + i) = 0 := by
  intro i hlt
  have hi' := @Inv.next s s' h (.calloc counts itemSize file line ans) hi ok (by rw [exec, he]; rfl)
  by_cases hs : counts = 0 ∨ itemSize = 0
  · rw [mmemCalloc_zero hi.unlocked hs] at he
    exact absurd (congrArg Prod.snd (Option.some.inj he)).symm hne
  · cases ha : ans.addr with
    | none =>
      rw [mmemCalloc_refused hi.unlocked hs ha] at he
      exact absurd (congrArg Prod.snd (Option.some.inj he)).symm hne
    | some a₀ =>
      rw [mmemCalloc_done hi.unlocked hs ha] at he
      have hr : blockData a₀ = a := congrArg Prod.snd (Option.some.inj he)
      change Inv s' (h.calloc counts itemSize file line ans) at hi'
      rw [Heap.calloc, if_neg hs, ha] at hi'
      have hmem : (⟨a₀, counts * itemSize % 2 ^ 64, file, line⟩ : Blk) ∈
          (h.place ⟨a₀, counts * itemSize % 2 ^ 64, file, line⟩ fun _ => 0).blocks :=
        List.mem_append_right _ (List.mem_singleton_self _)
      obtain ⟨hx, hx'⟩ := @Blk.data_add ⟨a₀, counts * itemSize % 2 ^ 64, file, line⟩ i hlt
      rw [← hr]
      exact (hi'.data hmem hlt).trans (h.place_view_data _ hx hx')

/-- What `mmem_realloc` to a size other than zero can do with a live block. -/
theorem Inv.realloc_cases (hi : Inv s h) (hb : b ∈ h.blocks) (ok : ReallocOk s h b.data size ans)
    (hs : size ≠ 0) (he : mmemRealloc s b.data size file line ans = some (s', a)) :
    (a = NULL ∧ s' = s) ∨ (a = NULL ∧ Inv s' { h with blocks := h.blocks.erase b ++ [b] }) ∨
      ∃ a', a = blockData a' ∧ Inv s' ((h.release b).place ⟨a', size, file, line⟩
        (h.resized b ⟨a', size, file, line⟩ s'.mem)) := by
  have hn : b.data ≠ NULL := blockData_ne_null b.addr
  rw [ReallocOk, if_neg hn, if_neg hs] at ok
  obtain ⟨b', hb', hdata, hfit, hl, hcp⟩ := ok
  obtain rfl : b' = b := by
    have h₁ := hi.find hb'
    rw [hdata, hi.find hb] at h₁
    exact (Option.some.inj h₁).symm
  by_cases hint : h.Intact b'
  · right
    cases ha : ans.addr with
    | none =>
      obtain ⟨t, ht, hi'⟩ := hi.realloc_failed hb hint hs hl hcp (K := ∅) (by simp) file line ha
      obtain ⟨rfl, rfl⟩ := Prod.mk.inj (Option.some.inj (ht.symm.trans he))
      exact .inl ⟨rfl, hi'.inv⟩
    | some a' =>
      obtain ⟨t, ht, hi'⟩ := hi.realloc_done hb hint hs hl hcp (K := ∅) (by simp) file line ha
        (hfit.of_some ha)
      obtain ⟨rfl, rfl⟩ := Prod.mk.inj (Option.some.inj (ht.symm.trans he))
      exact .inr ⟨a', rfl, hi'.inv⟩
  · have hc := hi.find_touched hb hint
    have ht : mmemRealloc s b'.data size file line ans = some (s, NULL) :=
      mmemRealloc_refused hi.unlocked hn hs hc
    obtain ⟨rfl, rfl⟩ := Prod.mk.inj (Option.some.inj (ht.symm.trans he))
    exact .inl ⟨rfl, rfl⟩

theorem Inv.realloc_resized (hi : Inv s h) (hb : b ∈ h.blocks)
    (ok : ReallocOk s h b.data size ans)
    (he : mmemRealloc s b.data size file line ans = some (s', a)) (hne : a ≠ NULL) :
    ∀ i < min b.size size, s'.mem (a + i) = s.mem (b.data + i) := by
  intro i hlt
  have hs : size ≠ 0 := by omega
  rcases hi.realloc_cases hb ok hs he with ⟨ha, -⟩ | ⟨ha, -⟩ | ⟨a', rfl, hi'⟩
  · exact absurd ha hne
  · exact absurd ha hne
  · have hmem : (⟨a', size, file, line⟩ : Blk) ∈ ((h.release b).place ⟨a', size, file, line⟩
        (h.resized b ⟨a', size, file, line⟩ s'.mem)).blocks :=
      List.mem_append_right _ (List.mem_singleton_self _)
    have hi₂ : i < size := by omega
    obtain ⟨hx, hx'⟩ := @Blk.data_add ⟨a', size, file, line⟩ i hi₂
    rw [hi.data hb (by omega : i < b.size)]
    refine (hi'.data hmem hi₂).trans ((Heap.place_view_data _ _ hx hx').trans ?_)
    unfold Heap.resized
    rw [if_pos (by omega), Nat.add_sub_cancel_left]

theorem Inv.realloc_refused (hi : Inv s h) (hb : b ∈ h.blocks)
    (ok : ReallocOk s h b.data size ans)
    (he : mmemRealloc s b.data size file line ans = some (s', NULL)) (hs : size ≠ 0) :
    ∀ i < b.size, s'.mem (b.data + i) = s.mem (b.data + i) := by
  intro i hlt
  rcases hi.realloc_cases hb ok hs he with ⟨-, rfl⟩ | ⟨-, hi'⟩ | ⟨a', ha, -⟩
  · rfl
  · have hmem : b ∈ h.blocks.erase b ++ [b] :=
      List.mem_append_right _ (List.mem_singleton_self b)
    rw [hi.data hb hlt]
    exact hi'.data hmem hlt
  · exact absurd ha.symm (blockData_ne_null a')

end calls

/-- **The data are the clients'** in every reachable state, and over every call from it. -/
theorem Reach.dataSafe (hr : Reach s h) : DataSafe s h where
  view := fun _ hb _ hlt => hr.inv.data hb hlt
  kept := fun c s' ok he hc b hb hb' i hlt => by
    have hi' := hr.inv.next ok he
    obtain ⟨hx, hx'⟩ := Blk.data_add hlt
    rw [hi'.data hb' hlt, Heap.view_step hb hi' hc hb' hx hx', hr.inv.data hb hlt]
  calloc := fun _ _ _ _ _ _ _ ok he hne => hr.inv.calloc_zeros ok he hne
  resized := fun _ hb _ _ _ _ _ _ ok he hne => hr.inv.realloc_resized hb ok he hne
  refused := fun _ hb _ _ _ _ _ ok he hs => hr.inv.realloc_refused hb ok he hs

theorem Reach.dataSafe_two : ∃ (s : State) (h : Heap), DataSafe s h ∧
    h.blocks = [⟨8192, 10, 0, 1⟩, ⟨16384, 20, 0, 2⟩] ∧ ¬ h.Intact ⟨8192, 10, 0, 1⟩ := by
  obtain ⟨s, h, hr, -, hb, hbad, -⟩ := reach_two
  exact ⟨s, h, hr.dataSafe, hb, hbad⟩

end FwkMlib.Mmem
