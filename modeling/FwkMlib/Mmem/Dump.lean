import FwkMlib.Mmem.Calls

/-!
# `mmem_dump`

* `readBlockInfo`, `readInfos` : what a caller reads back from the buffer; `Blk.info` : what a block
  has to say;
* `dumped` : how many entries fit the three limits of the loop;
* `dumpBlockLoop_spec` : the loop writes that many entries, those of the first blocks;
* `dumpCmd_spec` : every command ends, and only a buffer that is there changes.
-/

namespace FwkMlib.Mmem
open FwkMlib.Lib FwkMlib.Mlist

variable {s : State} {bs l₁ l₂ : List Blk} {b : Blk} {a : Nat} {m : Mem}

variable {cmd counts buf bufSize : Nat}

theorem frame_write64_buf {m₀ : Mem} (hf : Frame (bytesAt buf bufSize) m₀ m) {k : Nat} (v : Nat)
    (hk : k + 8 ≤ bufSize) : Frame (bytesAt buf bufSize) m₀ (write64 m (buf + k) v) := by
  refine hf.trans_self ((Frame.write64 m (buf + k) v).mono fun x hx => ?_)
  rw [mem_bytesAt] at hx ⊢
  omega

theorem frame_writeBlockInfo (m : Mem) (buf block : Nat) {k : Nat} (hk : k + 32 ≤ bufSize) :
    Frame (bytesAt buf bufSize) m (writeBlockInfo m (buf + k) block) := by
  unfold writeBlockInfo
  simp only [Nat.add_assoc]
  refine frame_write64_buf (frame_write64_buf (frame_write64_buf (frame_write64_buf
    (Frame.refl _ m) _ ?_) _ ?_) _ ?_) _ ?_ <;> omega

theorem frame_dumpCmdCounts (s : State) (buf bufSize : Nat) :
    Frame (bytesAt buf bufSize) s.mem (dumpCmdCounts s buf bufSize).1 := by
  unfold dumpCmdCounts
  split_ifs with hb hs
  · exact Frame.refl _ _
  · exact Frame.refl _ _
  · exact frame_write64_buf (k := 0) (Frame.refl _ _) _ (by omega)

theorem frame_dumpCmdMmemInfo (s : State) (buf bufSize : Nat) :
    Frame (bytesAt buf bufSize) s.mem (dumpCmdMmemInfo s buf bufSize).1 := by
  unfold dumpCmdMmemInfo
  split_ifs with hb hs
  · exact Frame.refl _ _
  · exact Frame.refl _ _
  · refine frame_write64_buf (frame_write64_buf (frame_write64_buf (frame_write64_buf
      (frame_write64_buf (k := 0) (Frame.refl _ _) _ ?_) _ ?_) _ ?_) _ ?_) _ ?_ <;> omega

/-! ## Entries -/

@[ext]
structure BlockInfo where
  size : Nat
  totalSize : Nat
  file : Nat
  line : Nat
  deriving DecidableEq

def readBlockInfo (m : Mem) (info : Nat) : BlockInfo where
  size := read64 m info
  totalSize := read64 m (info + 8)
  file := read64 m (info + 16)
  line := read64 m (info + 24)

def readInfos (m : Mem) (buf n : Nat) : List BlockInfo :=
  (List.range n).map fun i => readBlockInfo m (buf + 32 * i)

def Blk.info (b : Blk) : BlockInfo where
  size := b.size
  totalSize := MMEM_BLOCK_SIZE + b.size + 8
  file := b.file % 2 ^ 64
  line := (b.line % 2 ^ 64).toNat

theorem readBlockInfo_congr {m' : Mem} (h : ∀ x ∈ bytesAt a 32, m' x = m x) :
    readBlockInfo m' a = readBlockInfo m a := by
  have hw : ∀ k, k + 8 ≤ 32 → read64 m' (a + k) = read64 m (a + k) := fun k hk =>
    read64_congr fun i hi => h _ ⟨by omega, by omega⟩
  unfold readBlockInfo
  rw [hw 8 (by decide), hw 16 (by decide), hw 24 (by decide),
    show read64 m' a = read64 m a from hw 0 (by decide)]

theorem readInfos_succ (m : Mem) (buf n : Nat) :
    readInfos m buf (n + 1) = readBlockInfo m buf :: readInfos m (buf + 32) n := by
  unfold readInfos
  rw [List.range_succ_eq_map, List.map_cons, List.map_map]
  refine congrArg _ (List.map_congr_left fun i _ => ?_)
  show readBlockInfo m (buf + 32 * (i + 1)) = readBlockInfo m (buf + 32 + 32 * i)
  rw [Nat.mul_succ, Nat.add_assoc, Nat.add_comm 32 (32 * i)]

/-- An entry reads back as the block's header says, the buffer lying apart from it. -/
theorem readBlockInfo_writeBlockInfo (hh : Header m b) (hs : b.size + 64 < 2 ^ 64)
    (hd : ∀ x ∈ bytesAt a 32, ¬ (b.addr + 24 ≤ x ∧ x < b.addr + 56)) :
    readBlockInfo (writeBlockInfo m a b.addr) a = b.info := by
  have hw : ∀ {m : Mem} (k v : Nat), k + 8 ≤ 32 → Header m b → Header (write64 m (a + k) v) b := by
    intro m k v hk hm
    refine hm.congr fun x hx hx' => Frame.write64 m (a + k) v x fun hin => hd x ?_ ⟨hx, hx'⟩
    rw [mem_bytesAt] at hin ⊢
    omega
  have h₁ : Header (write64 m a b.size) b := hw 0 b.size (by decide) hh
  have h₂ := hw 8 (b.size + 64) (by decide) h₁
  have h₃ := hw 16 (b.file % 2 ^ 64) (by decide) h₂
  have hline : (b.line % 2 ^ 64).toNat < 2 ^ 64 := by omega
  have hsize : b.size < 2 ^ 64 := by omega
  unfold writeBlockInfo
  simp only
  rw [hh.size, h₁.totalSize, h₂.file, h₃.line]
  apply BlockInfo.ext
  · show read64 _ a = b.size
    rw [read64_write64_of_disjoint (by omega), read64_write64_of_disjoint (by omega),
      read64_write64_of_disjoint (by omega), read64_write64, Nat.mod_eq_of_lt hsize]
  · show read64 _ (a + 8) = MMEM_BLOCK_SIZE + b.size + 8
    rw [read64_write64_of_disjoint (by omega), read64_write64_of_disjoint (by omega),
      read64_write64, Nat.mod_eq_of_lt hs, MMEM_BLOCK_SIZE]
    omega
  · show read64 _ (a + 16) = b.file % 2 ^ 64
    rw [read64_write64_of_disjoint (by omega), read64_write64, Nat.mod_mod]
  · show read64 _ (a + 24) = (b.line % 2 ^ 64).toNat
    rw [read64_write64, Nat.mod_eq_of_lt hline]

/-! ## The loop -/

/-- How many entries a dump of `blocks` blocks writes: no more than asked for, than fit, than there
are. -/
def dumped (counts bufSize blocks : Nat) : Nat := min (min counts (bufSize / 32)) blocks

theorem dumped_one {n size k : Nat} (hn : 0 < n) (hs : 32 ≤ size) (hlast : n ≤ 1 ∨ size - 32 < 32) :
    dumped n size (k + 1) = 1 := by
  rw [dumped]
  omega

theorem dumped_succ {n size k : Nat} (hn : 1 < n) (hs : 32 ≤ size) :
    dumped n size (k + 1) = dumped (n - 1) (size - 32) k + 1 := by
  rw [dumped, dumped]
  omega

theorem Tracks.writeBlockInfo (ht : Tracks { s with mem := m } bs []) (hb : b ∈ bs)
    (hd : Disjoint (tableBytes s.list bs) (bytesAt a 32)) :
    Tracks { s with mem := writeBlockInfo m a b.addr } bs [] ∧
      readBlockInfo (writeBlockInfo m a b.addr) a = b.info := by
  have hf := @frame_writeBlockInfo 32 m a b.addr 0 (by decide)
  have hfits : b.size + 64 < 2 ^ 64 := by
    have := ht.layout.pos _ (ht.mem_regions hb)
    have := ht.layout.bound _ (ht.mem_regions hb)
    unfold Blk.region at *
    omega
  refine ⟨ht.congr_mem fun x hx => hf x (Set.disjoint_left.1 hd hx), ?_⟩
  apply readBlockInfo_writeBlockInfo (ht.header b hb) hfits
  exact fun x hx hx' => Set.disjoint_left.1 hd (.inr ⟨b, hb, by omega, hx'.2⟩) hx

/-- The loop, the blocks `l₁` behind it and `l₂` before it. -/
theorem dumpBlockLoop_spec (counts : Nat) : ∀ (l₂ l₁ : List Blk) (m : Mem) (index size fuel : Nat),
    Tracks { s with mem := m } (l₁ ++ l₂) [] → l₂.length < fuel → 32 ≤ size → size < 2 ^ 64 →
    index < counts → Disjoint (tableBytes s.list (l₁ ++ l₂))
      (bytesAt (buf + 32 * index) (32 * dumped (counts - index) size l₂.length)) →
    ∃ m', dumpBlockLoop s.list counts buf fuel m (firstNode s.list l₂) index size =
        some (m', ((index + dumped (counts - index) size l₂.length : Nat) : Int)) ∧
      Frame (bytesAt (buf + 32 * index) (32 * dumped (counts - index) size l₂.length)) m m' ∧
      readInfos m' (buf + 32 * index) (dumped (counts - index) size l₂.length) =
        (l₂.take (dumped (counts - index) size l₂.length)).map Blk.info := by
  intro l₂
  induction l₂ with
  | nil =>
    intro l₁ m index size fuel _ hfuel _ _ _ _
    obtain ⟨fuel, rfl⟩ := Nat.exists_eq_succ_of_ne_zero (Nat.ne_of_gt hfuel)
    have hd : dumped (counts - index) size (List.length ([] : List Blk)) = 0 := Nat.min_zero _
    rw [hd]
    exact ⟨m, if_pos rfl, Frame.refl _ m, rfl⟩
  | cons b l₂ ih =>
    intro l₁ m index size fuel ht hfuel hsize hlt hcounts hd
    obtain ⟨fuel, rfl⟩ := Nat.exists_eq_succ_of_ne_zero (Nat.ne_of_gt (Nat.zero_lt_of_lt hfuel))
    have hb : b ∈ l₁ ++ b :: l₂ := List.mem_append_right l₁ List.mem_cons_self
    have hne : b.node ≠ s.list := ht.node_ne_list hb
    have hf := @frame_writeBlockInfo 32 m (buf + 32 * index) b.addr 0 (by decide)
    have hpos : 1 ≤ dumped (counts - index) size (List.length (b :: l₂)) := by
      rw [dumped, List.length_cons]
      omega
    have hsub : bytesAt (buf + 32 * index) 32 ⊆ bytesAt (buf + 32 * index)
        (32 * dumped (counts - index) size (List.length (b :: l₂))) := by
      intro x hx
      rw [mem_bytesAt] at hx ⊢
      omega
    obtain ⟨ht', hread⟩ := ht.writeBlockInfo hb (hd.mono_right hsub)
    have hnext := ht'.next_node
    have hsub' : sub64 size 32 = size - 32 := by
      unfold sub64
      omega
    have hone : readInfos (writeBlockInfo m (buf + 32 * index) b.addr) (buf + 32 * index) 1 =
        ((b :: l₂).take 1).map Blk.info := by
      rw [readInfos_succ, hread]
      rfl
    show ∃ m', dumpBlockLoop s.list counts buf (fuel + 1) m b.node index size = some (m', _) ∧ _
    rw [dumpBlockLoop, if_neg hne, nodeBlock_node]
    simp only
    split_ifs with hc hs
    · rw [List.length_cons, dumped_one (by omega) hsize (.inl (by omega))]
      exact ⟨_, rfl, hf, hone⟩
    · rw [hsub'] at hs
      rw [List.length_cons, dumped_one (by omega) hsize (.inr hs)]
      exact ⟨_, rfl, hf, hone⟩
    · rw [hsub'] at hs ⊢
      have happ : l₁ ++ b :: l₂ = (l₁ ++ [b]) ++ l₂ := List.append_cons l₁ b l₂
      have hbuf : buf + 32 * (index + 1) = buf + 32 * index + 32 := by omega
      have hn : dumped (counts - index) size (List.length (b :: l₂)) =
          dumped (counts - (index + 1)) (size - 32) l₂.length + 1 := dumped_succ (by omega) hsize
      have htail : bytesAt (buf + 32 * (index + 1))
          (32 * dumped (counts - (index + 1)) (size - 32) l₂.length) ⊆
          bytesAt (buf + 32 * index) (32 * dumped (counts - index) size (List.length (b :: l₂))) := by
        intro x hx
        rw [mem_bytesAt] at hx ⊢
        omega
      obtain ⟨m', hl, hf', hread'⟩ := ih (l₁ ++ [b]) _ (index + 1) (size - 32) fuel (happ ▸ ht')
        (by simpa using hfuel) (by omega) (by omega) (by omega)
        (happ ▸ hd.mono_right htail)
      rw [hbuf] at hf' hread'
      rw [hn, hnext, hl]
      refine ⟨m', ?_, (hf.mono fun x hx => ?_).trans_self (hf'.mono fun x hx => ?_), ?_⟩
      · rw [Nat.add_assoc index 1, Nat.add_comm 1]
      · rw [mem_bytesAt] at hx ⊢
        omega
      · rw [mem_bytesAt] at hx ⊢
        omega
      · rw [readInfos_succ, hread', List.take_succ_cons, List.map_cons, ← hread]
        refine congrArg (· :: _) (readBlockInfo_congr fun x hx => hf' x fun hx' => ?_)
        rw [mem_bytesAt] at hx hx'
        omega

/-- **The entries of the blocks**: as many as `dumped` says, those of the first blocks, and nothing of
the buffer behind them. -/
theorem dumpCmdMmemBlockInfo_spec (ht : Tracks s bs []) (hr : s.ready = true) (counts : Nat)
    (hfuel : bs.length < s.regions.length + 1) (hb : buf ≠ NULL) (hs : ¬ bufSize < 32)
    (hlt : bufSize < 2 ^ 64) (hd : Disjoint (tableBytes s.list bs)
      (bytesAt buf (32 * dumped counts bufSize bs.length))) :
    ∃ m, dumpCmdMmemBlockInfo s counts buf bufSize =
        some (m, (dumped counts bufSize bs.length : Int)) ∧
      Frame (bytesAt buf (32 * dumped counts bufSize bs.length)) s.mem m ∧
      readInfos m buf (dumped counts bufSize bs.length) =
        (bs.take (dumped counts bufSize bs.length)).map Blk.info := by
  rw [dumpCmdMmemBlockInfo, if_neg hb, if_neg hs]
  split_ifs with hc
  · have hn : dumped counts bufSize bs.length = 0 := by
      rw [dumped, hc]
      omega
    rw [hn]
    exact ⟨s.mem, rfl, Frame.refl _ _, rfl⟩
  · rw [ht.next_list hr]
    have h := @dumpBlockLoop_spec s buf counts bs [] s.mem 0 bufSize (s.regions.length + 1) ht hfuel
      (by omega) hlt (Nat.pos_of_ne_zero hc)
    simp only [Nat.mul_zero, Nat.add_zero, Nat.sub_zero, Nat.zero_add] at h
    exact h hd

/-- Every command of `mmem_dump` ends, and only a buffer that is there changes. -/
theorem dumpCmd_spec (ht : Tracks s bs []) (hr : s.ready = true) (cmd counts : Nat)
    (hfuel : bs.length < s.regions.length + 1)
    (ok : buf ≠ NULL → buf + bufSize ≤ 2 ^ 64 ∧
      Disjoint (tableBytes s.list bs) (bytesAt buf bufSize)) :
    ∃ m ret, dumpCmd s cmd counts buf bufSize = some (m, ret) ∧
      (buf = NULL → m = s.mem) ∧ (buf ≠ NULL → Frame (bytesAt buf bufSize) s.mem m) := by
  unfold dumpCmd
  split_ifs
  · refine ⟨_, _, rfl, fun hb => ?_, fun _ => frame_dumpCmdCounts s buf bufSize⟩
    show (dumpCmdCounts s buf bufSize).1 = s.mem
    rw [dumpCmdCounts, if_pos hb]
  · refine ⟨_, _, rfl, fun hb => ?_, fun _ => frame_dumpCmdMmemInfo s buf bufSize⟩
    show (dumpCmdMmemInfo s buf bufSize).1 = s.mem
    rw [dumpCmdMmemInfo, if_pos hb]
  · by_cases hb : buf = NULL
    · exact ⟨_, _, if_pos hb, fun _ => rfl, fun hb' => absurd hb hb'⟩
    · by_cases hs : bufSize < 32
      · refine ⟨s.mem, MMEM_DUMP_RET_BUF_SIZE_TOO_SMALL, ?_, fun _ => rfl, fun _ => Frame.refl _ _⟩
        rw [dumpCmdMmemBlockInfo, if_neg hb, if_pos hs]
      · obtain ⟨hlt, hd⟩ := ok hb
        have hb' : 0 < buf := Nat.pos_of_ne_zero hb
        have hsub : bytesAt buf (32 * dumped counts bufSize bs.length) ⊆ bytesAt buf bufSize := by
          intro x hx
          rw [mem_bytesAt] at hx ⊢
          unfold dumped at hx
          omega
        obtain ⟨m, hl, hf, -⟩ := dumpCmdMmemBlockInfo_spec ht hr counts hfuel hb hs (by omega)
          (hd.mono_right hsub)
        exact ⟨m, _, hl, fun he => absurd he hb, fun _ => hf.mono hsub⟩
  · exact ⟨_, _, rfl, fun _ => rfl, fun _ => Frame.refl _ _⟩

end FwkMlib.Mmem
