import FwkMlib.Mmem.Run
import Mathlib.Algebra.Order.BigOperators.Group.List
import Mathlib.Algebra.Order.Ring.Nat

/-!
# What the dumps report

* `Trace` : runs with the table's sizes after every call so far; `peak` : the largest of them;
* `Trace.reported` : the peaks a dump reports are those of the run;
* `Reach.dumpBlockInfo` : a dump of the blocks lists the first of them, as many as are asked for, fit
  and exist.
-/

namespace FwkMlib.Mmem
open FwkMlib.Lib FwkMlib.Mlist

variable {s s' : State} {h h' : Heap} {bs bs' : List Blk} {c : Call} {K : Set Nat}
  {past : List (Nat × Nat)}

/-! ## The sizes do not wrap -/

theorem Tracks.totalSize_eq (ht : Tracks s bs []) :
    s.table.totalSize = (bs.map fun b => b.size + 64).sum := by
  have hl := ht.blk_layout.sum_lt
  rw [List.map_map] at hl
  rw [ht.totalSize]
  exact Nat.mod_eq_of_lt hl

theorem Tracks.activeSize_eq (ht : Tracks s bs []) :
    s.table.activeSize = (bs.map Blk.size).sum := by
  have hl := ht.blk_layout.sum_lt
  have hle : (bs.map Blk.size).sum ≤ (bs.map fun b => b.size + 64).sum :=
    List.sum_le_sum fun b _ => Nat.le_add_right _ _
  rw [List.map_map] at hl
  rw [ht.activeSize]
  exact Nat.mod_eq_of_lt (hle.trans_lt hl)

theorem sum_le_of_subperm {f : Blk → Nat} (hs : List.Subperm bs' bs) :
    (bs'.map f).sum ≤ (bs.map f).sum := by
  obtain ⟨l, hp, hl⟩ := hs
  rw [← (hp.map f).sum_eq]
  exact (hl.map f).sum_le_sum fun _ _ => Nat.zero_le _

/-! ## The peaks -/

/-- The peaks stand where the table has been. -/
structure Bounded (t : Table) : Prop where
  totalSize : t.totalSize ≤ t.maxTotalSize
  activeSize : t.activeSize ≤ t.maxActiveSize

/-- Every call brings the peaks up to date. -/
theorem Effect.maxima (hef : Effect K s s' h h') (hi : Inv s h) (hb : Bounded s.table) :
    s'.table.maxTotalSize = max s.table.maxTotalSize s'.table.totalSize ∧
      s'.table.maxActiveSize = max s.table.maxActiveSize s'.table.activeSize := by
  rcases hef.peaks with ⟨ht, ha, hs⟩ | hmax
  · have htotal : s'.table.totalSize ≤ s.table.totalSize := by
      rw [hef.inv.tracks.totalSize_eq, hi.tracks.totalSize_eq]
      exact sum_le_of_subperm hs
    have hactive : s'.table.activeSize ≤ s.table.activeSize := by
      rw [hef.inv.tracks.activeSize_eq, hi.tracks.activeSize_eq]
      exact sum_le_of_subperm hs
    exact ⟨by rw [ht, Nat.max_eq_left (htotal.trans hb.totalSize)],
      by rw [ha, Nat.max_eq_left (hactive.trans hb.activeSize)]⟩
  · exact hmax

theorem Effect.bounded (hef : Effect K s s' h h') (hi : Inv s h) (hb : Bounded s.table) :
    Bounded s'.table := by
  obtain ⟨ht, ha⟩ := hef.maxima hi hb
  exact ⟨by rw [ht]; exact Nat.le_max_right _ _, by rw [ha]; exact Nat.le_max_right _ _⟩

theorem Reach.bounded (hr : Reach s h) : Bounded s.table := by
  induction hr with
  | init list m hl => exact ⟨le_rfl, le_rfl⟩
  | step hr ok he ih => exact (hr.inv.effect ok (Call.keeps_empty _) he).bounded hr.inv ih

def Call.IsStore : Call → Prop
  | .write _ _ => True
  | _ => False

/-- Runs, with the active and the total size after every completed operation, the latest first. -/
inductive Trace : State → Heap → List (Nat × Nat) → Prop
  | init (list : Nat) (m : Mem) (hl : list + 16 ≤ 2 ^ 64) :
      Trace (initState list m) (initHeap m) []
  | step {s s' : State} {h : Heap} {past : List (Nat × Nat)} {c : Call} (ht : Trace s h past)
      (hc : ¬ c.IsStore) (ok : Allowed s h c) (he : exec s c = some s') :
      Trace s' (h.step c s'.mem) ((s'.table.activeSize, s'.table.totalSize) :: past)
  | store {s : State} {h : Heap} {past : List (Nat × Nat)} {x : Nat} {v : UInt8}
      (ht : Trace s h past) (ok : Allowed s h (.write x v)) :
      Trace { s with mem := writeBytes s.mem x [v] } (h.write x v) past

def peak (size : Nat × Nat → Nat) (past : List (Nat × Nat)) : Nat := (past.map size).foldr max 0

theorem Trace.reach (ht : Trace s h past) : Reach s h := by
  induction ht with
  | init list m hl => exact .init list m hl
  | step ht hc ok he ih => exact ih.step ok he
  | store ht ok ih => exact ih.step ok rfl

theorem Trace.maxima (ht : Trace s h past) :
    s.table.maxActiveSize = peak Prod.fst past ∧ s.table.maxTotalSize = peak Prod.snd past := by
  induction ht with
  | init list m hl => exact ⟨rfl, rfl⟩
  | step ht hc ok he ih =>
    have hi := ht.reach.inv
    obtain ⟨htotal, hactive⟩ := (hi.effect ok (Call.keeps_empty _) he).maxima hi ht.reach.bounded
    rw [htotal, hactive, ih.1, ih.2]
    exact ⟨Nat.max_comm _ _, Nat.max_comm _ _⟩
  | store ht ok ih => exact ih

theorem maxima_lt {s : State} (hr : Reach s h) :
    s.table.maxActiveSize < 2 ^ 64 ∧ s.table.maxTotalSize < 2 ^ 64 := by
  induction hr with
  | init list m hl => exact ⟨Nat.two_pow_pos 64, Nat.two_pow_pos 64⟩
  | step hr ok he ih =>
    have hi := hr.inv
    have hef := hi.effect ok (Call.keeps_empty _) he
    obtain ⟨htotal, hactive⟩ := hef.maxima hi hr.bounded
    rw [htotal, hactive, hef.inv.tracks.totalSize, hef.inv.tracks.activeSize]
    exact ⟨max_lt ih.1 (Nat.mod_lt _ (Nat.two_pow_pos 64)),
      max_lt ih.2 (Nat.mod_lt _ (Nat.two_pow_pos 64))⟩

theorem dumpCmd_info (s : State) (counts buf bufSize : Nat) :
    dumpCmd s MMEM_DUMP_CMD_MMEM_INFO counts buf bufSize = some (dumpCmdMmemInfo s buf bufSize) := by
  rw [dumpCmd, if_neg (by decide), if_pos rfl]

/-- **The peaks reported are those of the run.** -/
theorem Trace.reported (ht : Trace s h past) (counts : Nat) {buf bufSize : Nat} (hb : buf ≠ NULL)
    (hs : 40 ≤ bufSize) :
    ∃ s', mmemDump s MMEM_DUMP_CMD_MMEM_INFO counts buf bufSize = some (s', MMEM_DUMP_RET_OK) ∧
      read64 s'.mem (buf + 24) = peak Prod.snd past ∧
      read64 s'.mem (buf + 32) = peak Prod.fst past := by
  obtain ⟨hactive, htotal⟩ := ht.maxima
  obtain ⟨hla, hlt⟩ := maxima_lt ht.reach
  have hmt := maxTotalSize_blockTableGet { s with locked := true }
  have hma := maxActiveSize_blockTableGet { s with locked := true }
  have hl : (blockTableGet { s with locked := true }).locked = true := locked_blockTableGet _
  refine ⟨{ blockTableGet { s with locked := true } with
    mem := (dumpCmdMmemInfo (blockTableGet { s with locked := true }) buf bufSize).1
    locked := false }, ?_, ?_, ?_⟩
  · have hret : (dumpCmdMmemInfo (blockTableGet { s with locked := true }) buf bufSize).2 =
        MMEM_DUMP_RET_OK := by
      rw [dumpCmdMmemInfo, if_neg hb, if_neg (Nat.not_lt.2 hs)]
    rw [mmemDump, lock_eq ht.reach.inv.unlocked]
    simp only [Option.bind_eq_bind, Option.bind_some, dumpCmd_info, unlock, hl, if_true, hret]
    rfl
  · show read64 (dumpCmdMmemInfo _ buf bufSize).1 (buf + 24) = _
    rw [dumpCmdMmemInfo, if_neg hb, if_neg (Nat.not_lt.2 hs)]
    simp only
    rw [read64_write64_of_disjoint (by omega), read64_write64, hmt, Nat.mod_eq_of_lt hlt, htotal]
  · show read64 (dumpCmdMmemInfo _ buf bufSize).1 (buf + 32) = _
    rw [dumpCmdMmemInfo, if_neg hb, if_neg (Nat.not_lt.2 hs)]
    simp only
    rw [read64_write64, hma, Nat.mod_eq_of_lt hla, hactive]

/-- Two blocks, of which the second is released again: the peaks stay. -/
theorem Trace.reported_two : ∃ (s s' : State) (h : Heap), h.blocks = [⟨8192, 10, 0, 1⟩] ∧
    mmemDump s MMEM_DUMP_CMD_MMEM_INFO 0 32768 40 = some (s', MMEM_DUMP_RET_OK) ∧
    read64 s'.mem (32768 + 24) = 158 ∧ read64 s'.mem (32768 + 32) = 30 := by
  have t₀ : Trace (initState 4096 ⟨fun _ => 0⟩) (initHeap ⟨fun _ => 0⟩) [] := .init 4096 _ (by decide)
  have ok₀ : Allowed (initState 4096 ⟨fun _ => 0⟩) (initHeap ⟨fun _ => 0⟩)
      (.alloc 10 0 1 ⟨some 8192, id⟩) :=
    t₀.reach.inv.allowed_alloc 0 1 (by decide) (by decide) (by decide) (by decide)
  obtain ⟨s₁, he₁, hef₁⟩ := t₀.reach.inv.step ok₀ (Call.keeps_empty _)
  have t₁ := t₀.step id ok₀ he₁
  let h₁ := (initHeap ⟨fun _ => 0⟩).step (.alloc 10 0 1 ⟨some 8192, id⟩) s₁.mem
  have ok₁ : Allowed s₁ h₁ (.alloc 20 0 2 ⟨some 16384, id⟩) := by
    have hl₁ : s₁.list = 4096 := hef₁.list
    refine t₁.reach.inv.allowed_alloc 0 2 (by decide) (by decide) (by rw [hl₁]; decide) fun b hb => ?_
    obtain rfl : b = ⟨8192, 10, 0, 1⟩ := List.mem_singleton.1 hb
    decide
  obtain ⟨s₂, he₂, hef₂⟩ := t₁.reach.inv.step ok₁ (Call.keeps_empty _)
  have t₂ := t₁.step id ok₁ he₂
  let h₂ := h₁.step (.alloc 20 0 2 ⟨some 16384, id⟩) s₂.mem
  have hmem : (⟨16384, 20, 0, 2⟩ : Blk) ∈ h₂.blocks := List.mem_cons_of_mem _ List.mem_cons_self
  have ok₂ : Allowed s₂ h₂ (.free (blockData 16384) id) :=
    fun _ => ⟨_, hmem, rfl, fun _ _ _ => rfl⟩
  obtain ⟨s₃, he₃, hef₃⟩ := t₂.reach.inv.step ok₂ (Call.keeps_empty _)
  have t₃ := t₂.step id ok₂ he₃
  have hfree : (h₂.step (.free (blockData 16384) id) s₃.mem).blocks = [⟨8192, 10, 0, 1⟩] := by
    show (Heap.free h₂ (Blk.data ⟨16384, 20, 0, 2⟩)).blocks = _
    rw [Heap.free, t₂.reach.inv.find hmem]
    exact congrArg Heap.blocks (if_pos (Heap.intact_place h₁ ⟨16384, 20, 0, 2⟩ s₂.mem))
  obtain ⟨s', hd, htotal, hactive⟩ := t₃.reported 0 (by decide : 32768 ≠ NULL) (le_refl 40)
  refine ⟨s₃, s', _, hfree, hd, htotal.trans ?_, hactive.trans ?_⟩
  · simp only [peak, List.map_cons, List.map_nil, List.foldr_cons, List.foldr_nil,
      t₁.reach.inv.tracks.totalSize_eq, t₂.reach.inv.tracks.totalSize_eq,
      t₃.reach.inv.tracks.totalSize_eq]
    rfl
  · simp only [peak, List.map_cons, List.map_nil, List.foldr_cons, List.foldr_nil,
      t₁.reach.inv.tracks.activeSize_eq, t₂.reach.inv.tracks.activeSize_eq,
      t₃.reach.inv.tracks.activeSize_eq]
    rfl

/-! ## The entries of the blocks -/

/-- Setting up the list leaves the counters of an empty table as they are. -/
theorem Tracks.table_blockTableGet {spare : List (Nat × Nat)} (ht : Tracks s bs spare) :
    (Mmem.blockTableGet s).table = s.table := by
  unfold Mmem.blockTableGet
  split_ifs with hr
  · rfl
  · have hbs : bs = [] := ht.fresh (Bool.not_eq_true _ ▸ hr)
    have htotal : s.table.totalSize = 0 := by rw [ht.totalSize, hbs]; rfl
    have hactive : s.table.activeSize = 0 := by rw [ht.activeSize, hbs]; rfl
    show { s.table with totalSize := 0, activeSize := 0 } = s.table
    rw [← htotal]
    nth_rewrite 2 [htotal]
    rw [← hactive]

/-- What a dump of the blocks leaves: the table as it was, and in the buffer the entries of the first
`n` blocks. -/
structure Dumped (s s' : State) (bs : List Blk) (buf n : Nat) : Prop where
  tracks : Tracks s' bs []
  table : s'.table = s.table
  regions : s'.regions = s.regions
  calls : s'.calls = s.calls
  kept : Frame (bytesAt buf (32 * n)) (blockTableGet s).mem s'.mem
  infos : readInfos s'.mem buf n = (bs.take n).map Blk.info

theorem mem_blockTableGet_lock (s : State) (l : Bool) :
    (blockTableGet { s with locked := l }).mem = (blockTableGet s).mem := by
  unfold blockTableGet
  split_ifs <;> rfl

theorem Inv.dump_of {buf bufSize counts n cmd : Nat} {m : Mem} {ret : Int} (hi : Inv s h)
    (hm : dumpCmd (blockTableGet { s with locked := true }) cmd counts buf bufSize = some (m, ret))
    (hd : Disjoint (tableBytes s.list h.blocks) (bytesAt buf (32 * n)))
    (hf : Frame (bytesAt buf (32 * n)) (blockTableGet { s with locked := true }).mem m)
    (hinfo : readInfos m buf n = (h.blocks.take n).map Blk.info) :
    ∃ s', mmemDump s cmd counts buf bufSize = some (s', ret) ∧ Dumped s s' h.blocks buf n := by
  have hlocked := hi.tracks.setLocked true
  obtain ⟨h₁, -, -⟩ := hlocked.blockTableGet
  have hl : (blockTableGet { s with locked := true }).locked = true := locked_blockTableGet _
  have htr : Tracks { blockTableGet { s with locked := true } with mem := m } h.blocks [] := by
    refine h₁.congr_mem fun x hx => hf x fun hx' => Set.disjoint_left.1 hd ?_ hx'
    rwa [list_blockTableGet] at hx
  refine ⟨{ blockTableGet { s with locked := true } with mem := m, locked := false }, ?_,
    htr.setLocked false, hlocked.table_blockTableGet, regions_blockTableGet _, calls_blockTableGet _,
    ?_, hinfo⟩
  · rw [mmemDump, lock_eq hi.unlocked]
    simp only [Option.bind_eq_bind, Option.bind_some, hm, unlock, hl, if_true]
    rfl
  · rw [← mem_blockTableGet_lock s true]
    exact hf

theorem dumpCmd_blockInfo (s : State) (counts buf bufSize : Nat) :
    dumpCmd s MMEM_DUMP_CMD_MMEM_BLOCK_INFO counts buf bufSize =
      dumpCmdMmemBlockInfo s counts buf bufSize := by
  rw [dumpCmd, if_neg (by decide), if_neg (by decide), if_pos rfl]

theorem disjoint_bytesAt_zero {S : Set Nat} {buf : Nat} : Disjoint S (bytesAt buf (32 * 0)) := by
  refine Set.disjoint_left.2 fun x _ hx => ?_
  rw [mem_bytesAt] at hx
  omega

theorem Inv.dumpEntries (hi : Inv s h) (counts : Nat) {buf bufSize : Nat}
    (hlt : bufSize < 2 ^ 64) (hd : buf ≠ NULL → Disjoint (tableBytes s.list h.blocks)
      (bytesAt buf (32 * dumped counts bufSize h.blocks.length))) :
    ∃ s' ret n, mmemDump s MMEM_DUMP_CMD_MMEM_BLOCK_INFO counts buf bufSize = some (s', ret) ∧
      Dumped s s' h.blocks buf n ∧
      (buf = NULL → ret = MMEM_DUMP_RET_EMPTY_BUF ∧ n = 0) ∧
      (buf ≠ NULL → bufSize < 32 → ret = MMEM_DUMP_RET_BUF_SIZE_TOO_SMALL ∧ n = 0) ∧
      (buf ≠ NULL → 32 ≤ bufSize → ret = n ∧ n = dumped counts bufSize h.blocks.length) := by
  have h₀ := fun ret (hm : dumpCmd (blockTableGet { s with locked := true })
      MMEM_DUMP_CMD_MMEM_BLOCK_INFO counts buf bufSize =
      some ((blockTableGet { s with locked := true }).mem, ret)) =>
    hi.dump_of (n := 0) hm disjoint_bytesAt_zero (Frame.refl _ _) rfl
  by_cases hb : buf = NULL
  · obtain ⟨s', he, hs'⟩ := h₀ MMEM_DUMP_RET_EMPTY_BUF (by
      rw [dumpCmd_blockInfo, dumpCmdMmemBlockInfo, if_pos hb])
    exact ⟨s', _, 0, he, hs', fun _ => ⟨rfl, rfl⟩, fun h => absurd hb h, fun h => absurd hb h⟩
  by_cases hs : bufSize < 32
  · obtain ⟨s', he, hs'⟩ := h₀ MMEM_DUMP_RET_BUF_SIZE_TOO_SMALL (by
      rw [dumpCmd_blockInfo, dumpCmdMmemBlockInfo, if_neg hb, if_pos hs])
    exact ⟨s', _, 0, he, hs', fun h => absurd h hb, fun _ _ => ⟨rfl, rfl⟩,
      fun _ h => absurd hs (Nat.not_lt.2 h)⟩
  obtain ⟨h₁, hr₁, -⟩ := (hi.tracks.setLocked true).blockTableGet
  have hfuel : h.blocks.length < (blockTableGet { s with locked := true }).regions.length + 1 := by
    rw [regions_blockTableGet]
    exact hi.length_lt
  obtain ⟨m, hm, hf, hinfo⟩ := dumpCmdMmemBlockInfo_spec h₁ hr₁ counts hfuel hb hs hlt
    (by rw [list_blockTableGet]; exact hd hb)
  obtain ⟨s', he, hs'⟩ := hi.dump_of (by rw [dumpCmd_blockInfo]; exact hm) (hd hb) hf hinfo
  exact ⟨s', _, _, he, hs', fun h => absurd h hb, fun _ h => absurd h hs, fun _ _ => ⟨rfl, rfl⟩⟩

end FwkMlib.Mmem
