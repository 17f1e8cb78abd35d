import FwkMlib.Kcp.Ikcp

/-!
# The sending side of KCP

* `Cut` : the messages that the upper level said, cut into pieces;
* `ikcpSend_spec` : what `ikcp_send` accepts is cut into pieces at the end of `snd_queue`. In streaming
  mode the last piece may grow, as long as it has no number.
-/

namespace FwkMlib.Kcp
open FwkMlib.Lib

/-! ## Fragments -/

/-- The number of fragments of `ikcp_send`. -/
def pieceCount (mss : Nat) (data : List UInt8) : Nat :=
  if data.length ≤ mss then 1 else (data.length + mss - 1) / mss

theorem pieceCount_pos {mss : Nat} (hmss : 0 < mss) (data : List UInt8) :
    0 < pieceCount mss data := by
  unfold pieceCount
  split_ifs with h
  · exact Nat.one_pos
  · exact Nat.div_pos (by omega) hmss

theorem length_le_pieceCount {mss : Nat} (hmss : 0 < mss) (data : List UInt8) :
    data.length ≤ pieceCount mss data * mss := by
  unfold pieceCount
  split_ifs with h
  · rwa [Nat.one_mul]
  · have hdiv := Nat.div_add_mod (data.length + mss - 1) mss
    have hmod := Nat.mod_lt (data.length + mss - 1) hmss
    rw [Nat.mul_comm] at hdiv
    omega

theorem pieceCount_mono {mss : Nat} (hmss : 0 < mss) {data data' : List UInt8}
    (h : data'.length ≤ data.length) : pieceCount mss data' ≤ pieceCount mss data := by
  by_cases hle : data'.length ≤ mss
  · rw [pieceCount, if_pos hle]
    exact pieceCount_pos hmss data
  · unfold pieceCount
    rw [if_neg hle, if_neg (by omega)]
    exact Nat.div_le_div_right (by omega)

/-- The fragments of a message count down; those of a stream are messages of their own. -/
theorem piece_ikcpFragments (stream : Int32) (mss n : Nat) (hn : n ≤ 2 ^ 32) (data : List UInt8) :
    (ikcpFragments stream mss n data).map Segment.piece =
      (Piece.split mss n data).map fun p => if stream = 0 then p else (0, p.2) := by
  induction n generalizing data with
  | zero => rfl
  | succ n ih =>
    have hfrg : (UInt32.ofNat n).toNat = n := UInt32.toNat_ofNat_of_lt' (by show n < 2 ^ 32; omega)
    rw [ikcpFragments, Piece.split, List.map_cons, List.map_cons, ih (by omega)]
    congr 1
    unfold Segment.piece
    split_ifs
    · rw [hfrg]
    · rfl

theorem data_le_of_mem_ikcpFragments {stream : Int32} {mss n : Nat} {data : List UInt8}
    {seg : Segment} (hs : seg ∈ ikcpFragments stream mss n data) : seg.data.length ≤ mss := by
  induction n generalizing data with
  | zero => cases hs
  | succ n ih =>
    obtain rfl | hs := List.mem_cons.1 hs
    · exact List.length_take_le _ _
    · exact ih hs

theorem length_ikcpFragments (stream : Int32) (mss n : Nat) (data : List UInt8) :
    (ikcpFragments stream mss n data).length = n := by
  induction n generalizing data with
  | zero => rfl
  | succ n ih => rw [ikcpFragments, List.length_cons, ih]

/-! ## What was said -/

/-- The messages `said`, cut into the pieces `all` with the messages `gs` among them. -/
structure Cut (stream : Int32) (said : List (List UInt8)) (all : List (Piece UInt8))
    (gs : List (List (Piece UInt8))) : Prop where
  flatten : gs.flatten = all
  whole : ∀ g ∈ gs, Piece.Whole g
  small : ∀ g ∈ gs, g.length < 128
  bytes : (gs.map Piece.join).flatten = said.flatten
  message : stream = 0 → gs.map Piece.join = said
  /-- In streaming mode a piece is a message of its own. -/
  single : stream ≠ 0 → ∀ g ∈ gs, g.length = 1

namespace Cut

variable {stream : Int32} {said said' : List (List UInt8)} {all init new : List (Piece UInt8)}
  {gs : List (List (Piece UInt8))} {p : Piece UInt8}

theorem nil (stream : Int32) : Cut stream [] [] [] :=
  ⟨rfl, nofun, nofun, rfl, fun _ => rfl, fun _ => nofun⟩

/-- In streaming mode only the bytes count. -/
theorem of_flatten_eq (h : Cut stream said all gs) (hstream : stream ≠ 0)
    (hsaid : said'.flatten = said.flatten) : Cut stream said' all gs where
  flatten := h.flatten
  whole := h.whole
  small := h.small
  bytes := h.bytes.trans hsaid.symm
  message h0 := absurd h0 hstream
  single := h.single

/-- A message is cut. -/
theorem message_append (h : Cut 0 said all gs) {mss n : Nat} {data : List UInt8}
    (hlen : data.length ≤ (n + 1) * mss) (hsmall : n + 1 < 128) :
    Cut 0 (said ++ [data]) (all ++ Piece.split mss (n + 1) data)
      (gs ++ [Piece.split mss (n + 1) data]) where
  flatten := by rw [List.flatten_append, List.flatten_singleton, h.flatten]
  whole g hg := by
    obtain hg | hg := List.mem_append.1 hg
    · exact h.whole g hg
    · rw [List.mem_singleton.1 hg]
      exact Piece.whole_split mss n data
  small g hg := by
    obtain hg | hg := List.mem_append.1 hg
    · exact h.small g hg
    · rwa [List.mem_singleton.1 hg, Piece.length_split]
  bytes := by
    rw [List.map_append, List.flatten_append, List.flatten_append, h.bytes]
    simp [Piece.join_split mss (n + 1) data hlen]
  message _ := by
    rw [List.map_append, h.message rfl]
    simp [Piece.join_split mss (n + 1) data hlen]
  single hstream := absurd rfl hstream

/-- Pieces of a stream. -/
theorem stream_append (h : Cut stream said all gs) (hstream : stream ≠ 0)
    (hnew : ∀ q ∈ new, q.1 = 0) :
    Cut stream (said ++ [Piece.join new]) (all ++ new) (gs ++ new.map fun q => [q]) where
  flatten := by
    rw [List.flatten_append, h.flatten]
    congr 1
    induction new with
    | nil => rfl
    | cons q new ih =>
      rw [List.map_cons, List.flatten_cons, ih fun r hr => hnew r (List.mem_cons_of_mem _ hr)]
      rfl
  whole g hg := by
    obtain hg | hg := List.mem_append.1 hg
    · exact h.whole g hg
    · obtain ⟨q, hq, rfl⟩ := List.mem_map.1 hg
      obtain ⟨n, data⟩ := q
      obtain rfl : n = 0 := hnew _ hq
      exact .last data
  small g hg := by
    obtain hg | hg := List.mem_append.1 hg
    · exact h.small g hg
    · obtain ⟨q, -, rfl⟩ := List.mem_map.1 hg
      rw [List.length_singleton]
      omega
  bytes := by
    have hjoin : ((new.map fun q => [q]).map Piece.join).flatten = Piece.join new := by
      induction new with
      | nil => rfl
      | cons q new ih =>
        rw [List.map_cons, List.map_cons, List.flatten_cons,
          ih fun r hr => hnew r (List.mem_cons_of_mem _ hr)]
        simp
    rw [List.map_append, List.flatten_append, List.flatten_append, h.bytes, hjoin,
      List.flatten_singleton]
  message h0 := absurd h0 hstream
  single _ g hg := by
    obtain hg | hg := List.mem_append.1 hg
    · exact h.single hstream g hg
    · obtain ⟨q, -, rfl⟩ := List.mem_map.1 hg
      rfl

/-- The last piece of a stream grows. The messages before it stay. -/
theorem extend (h : Cut stream said (init ++ [p]) gs) (hstream : stream ≠ 0) (ext : List UInt8) :
    Cut stream (said ++ [ext]) (init ++ [(0, p.2 ++ ext)]) (gs.dropLast ++ [[(0, p.2 ++ ext)]]) := by
  have hne : gs ≠ [] := by
    rintro rfl
    exact absurd h.flatten.symm (List.append_ne_nil_of_right_ne_nil _ (List.cons_ne_nil _ _))
  have hlast := List.dropLast_append_getLast hne
  -- the last message is the last piece
  have hlen := h.single hstream _ (List.getLast_mem hne)
  obtain ⟨q, hq⟩ := List.length_eq_one_iff.1 hlen
  rw [hq] at hlast
  have hflat := h.flatten
  rw [← hlast, List.flatten_append, List.flatten_singleton] at hflat
  obtain ⟨hinit, hp⟩ := List.append_inj' hflat rfl
  obtain rfl : q = p := (List.cons.inj hp).1
  have hsub : ∀ g ∈ gs.dropLast, g ∈ gs := fun g hg => List.dropLast_subset gs hg
  refine ⟨?_, ?_, ?_, ?_, fun h0 => absurd h0 hstream, ?_⟩
  · rw [List.flatten_append, List.flatten_singleton, hinit]
  · intro g hg
    obtain hg | hg := List.mem_append.1 hg
    · exact h.whole g (hsub g hg)
    · rw [List.mem_singleton.1 hg]
      exact .last _
  · intro g hg
    obtain hg | hg := List.mem_append.1 hg
    · exact h.small g (hsub g hg)
    · rw [List.mem_singleton.1 hg, List.length_singleton]
      omega
  · have hbytes := h.bytes
    rw [← hlast, List.map_append, List.flatten_append] at hbytes
    rw [List.map_append, List.flatten_append, List.flatten_append, ← hbytes]
    simp
  · intro _ g hg
    obtain hg | hg := List.mem_append.1 hg
    · exact h.single hstream g (hsub g hg)
    · rw [List.mem_singleton.1 hg]
      rfl

end Cut

/-! ## Saying a message -/

variable {kcp kcp' : Ikcpcb} {said : List (List UInt8)} {hist : List (Piece UInt8)}
  {gs gs' : List (List (Piece UInt8))} {data : List UInt8}

/-- The messages of which all pieces have numbers are the same. -/
def SameNumbered (hist : List (Piece UInt8)) (gs gs' : List (List (Piece UInt8))) : Prop :=
  ∀ n ≤ gs.length, (gs.take n).flatten <+: hist → gs'.take n = gs.take n

namespace SameNumbered

theorem append (gs new : List (List (Piece UInt8))) : SameNumbered hist gs (gs ++ new) :=
  fun _ hn _ => List.take_append_of_le_length hn

theorem trans {gs'' : List (List (Piece UInt8))} (h : SameNumbered hist gs gs')
    (h' : SameNumbered hist gs' gs'') : SameNumbered hist gs gs'' := by
  intro n hn hpre
  have heq := h n hn hpre
  have hn' : n ≤ gs'.length := by
    have hlen := congrArg List.length heq
    rw [List.length_take, List.length_take] at hlen
    omega
  rw [h' n hn' (heq.symm ▸ hpre), heq]

/-- The last message has a piece without a number. -/
theorem dropLast {q : List (Piece UInt8)} (hq : q ≠ []) (hflat : gs.flatten = hist ++ q)
    (g : List (Piece UInt8)) : SameNumbered hist gs (gs.dropLast ++ [g]) := by
  intro n hn hpre
  have hlt : n < gs.length := by
    refine Nat.lt_of_le_of_ne hn ?_
    rintro rfl
    rw [List.take_length, hflat] at hpre
    have := hpre.length_le
    have := List.length_pos_iff.2 hq
    rw [List.length_append] at *
    omega
  rw [List.take_append_of_le_length (by rw [List.length_dropLast]; omega), List.dropLast_eq_take,
    List.take_take, Nat.min_eq_left (by omega)]

end SameNumbered

/-- Only `snd_queue` differs. -/
structure Queued (kcp kcp' : Ikcpcb) : Prop where
  config : kcp'.config = kcp.config
  recvSide : kcp'.recvSide = kcp.recvSide
  acklist : kcp'.acklist = kcp.acklist
  sndUna : kcp'.sndUna = kcp.sndUna
  sndNxt : kcp'.sndNxt = kcp.sndNxt
  sndBuf : kcp'.sndBuf = kcp.sndBuf
  nsndBuf : kcp'.nsndBuf = kcp.nsndBuf

theorem Queued.trans {kcp'' : Ikcpcb} (h : Queued kcp kcp') (h' : Queued kcp' kcp'') :
    Queued kcp kcp'' :=
  ⟨h'.1.trans h.1, h'.2.trans h.2, h'.3.trans h.3, h'.4.trans h.4, h'.5.trans h.5, h'.6.trans h.6,
    h'.7.trans h.7⟩

theorem extendLast_spec (hstream : kcp.stream ≠ 0)
    (h : Cut kcp.stream said (hist ++ kcp.sndQueue.map Segment.piece) gs)
    (hfit : ∀ seg ∈ kcp.sndQueue, seg.data.length ≤ kcp.mss.toNat) (data : List UInt8) :
    Queued kcp (extendLast kcp data).2 ∧ (extendLast kcp data).1 ≤ data.length ∧
      (extendLast kcp data).2.nsndQue = kcp.nsndQue ∧
      (extendLast kcp data).2.sndQueue.length = kcp.sndQueue.length ∧
      (∀ seg ∈ (extendLast kcp data).2.sndQueue, seg.data.length ≤ kcp.mss.toNat) ∧
      ((extendLast kcp data).1 = 0 → data ≠ [] → (extendLast kcp data).2 = kcp) ∧
      ∃ gs', SameNumbered hist gs gs' ∧ Cut kcp.stream (said ++ [data.take (extendLast kcp data).1])
        (hist ++ (extendLast kcp data).2.sndQueue.map Segment.piece) gs' := by
  have hsame : Queued kcp kcp ∧ 0 ≤ data.length ∧ kcp.nsndQue = kcp.nsndQue ∧
      kcp.sndQueue.length = kcp.sndQueue.length ∧
      (∀ seg ∈ kcp.sndQueue, seg.data.length ≤ kcp.mss.toNat) ∧ (0 = 0 → data ≠ [] → kcp = kcp) ∧
      ∃ gs', SameNumbered hist gs gs' ∧ Cut kcp.stream (said ++ [data.take 0])
        (hist ++ kcp.sndQueue.map Segment.piece) gs' :=
    ⟨⟨rfl, rfl, rfl, rfl, rfl, rfl, rfl⟩, Nat.zero_le _, rfl, rfl, hfit, fun _ _ => rfl, gs,
      fun _ _ _ => rfl, h.of_flatten_eq hstream (by simp)⟩
  unfold extendLast
  cases hlast : kcp.sndQueue.getLast? with
  | none => exact hsame
  | some old =>
    dsimp only
    split_ifs with hroom
    · obtain ⟨init, hinit⟩ := List.getLast?_eq_some_iff.1 hlast
      have hne : kcp.sndQueue.map Segment.piece ≠ [] := by
        rw [hinit, List.map_append]
        exact List.append_ne_nil_of_right_ne_nil _ (List.cons_ne_nil _ _)
      let extend := min data.length (kcp.mss.toNat - old.data.length)
      have hcut : Cut kcp.stream said ((hist ++ init.map Segment.piece) ++ [old.piece]) gs := by
        rw [hinit, List.map_append, ← List.append_assoc] at h
        exact h
      refine ⟨⟨rfl, rfl, rfl, rfl, rfl, rfl, rfl⟩, Nat.min_le_left _ _, rfl, ?_, ?_, ?_,
        _, .dropLast hne h.flatten [(0, old.data ++ data.take extend)], ?_⟩
      · rw [hinit, List.dropLast_concat, List.length_append, List.length_append]
        rfl
      · intro seg hs
        obtain hs | hs := List.mem_append.1 hs
        · exact hfit seg (List.dropLast_subset _ hs)
        · rw [List.mem_singleton.1 hs]
          show (old.data ++ data.take extend).length ≤ _
          rw [List.length_append, List.length_take]
          omega
      · intro h0 hdata
        have := List.length_pos_iff.2 hdata
        omega
      · have hext := hcut.extend hstream (data.take extend)
        rw [hinit, List.dropLast_concat, List.map_append, ← List.append_assoc]
        exact hext
    · exact hsame

theorem sum_length_eq (segs : List Segment) :
    (segs.map fun seg => seg.data.length).sum = (Piece.join (segs.map Segment.piece)).length := by
  induction segs with
  | nil => rfl
  | cons seg segs ih =>
    rw [List.map_cons, List.sum_cons, ih, List.map_cons, Piece.join_cons, List.length_append]
    rfl

theorem join_map_zero (ps : List (Piece UInt8)) :
    Piece.join (ps.map fun p => (0, p.2)) = Piece.join ps := by
  induction ps with
  | nil => rfl
  | cons p ps ih => rw [List.map_cons, Piece.join_cons, ih, Piece.join_cons]

/-- The fragments of some data hold it, and are the pieces of one more message. -/
theorem Cut.fragments {stream : Int32} {all : List (Piece UInt8)} {mss : Nat}
    (h : Cut stream said all gs) (hist : List (Piece UInt8)) (hmss : 0 < mss) (hcount : pieceCount mss data < 128) :
    Piece.join ((ikcpFragments stream mss (pieceCount mss data) data).map Segment.piece) = data ∧
    ∃ gs', SameNumbered hist gs gs' ∧ Cut stream (said ++ [data])
      (all ++ (ikcpFragments stream mss (pieceCount mss data) data).map Segment.piece) gs' := by
  have hlen := length_le_pieceCount hmss data
  rw [piece_ikcpFragments stream mss _ (by omega)]
  by_cases hstream : stream = 0
  · subst hstream
    obtain ⟨n, hn⟩ := Nat.exists_eq_add_one.2 (pieceCount_pos hmss data)
    have hid : (Piece.split mss (pieceCount mss data) data).map
        (fun p => if (0 : Int32) = 0 then p else (0, p.2)) =
        Piece.split mss (pieceCount mss data) data := by simp
    rw [hid]
    rw [hn] at hlen hcount ⊢
    exact ⟨Piece.join_split mss (n + 1) data hlen, _, .append _ _, h.message_append hlen hcount⟩
  · simp only [if_neg hstream]
    have hjoin : Piece.join ((Piece.split mss (pieceCount mss data) data).map fun p => (0, p.2)) =
        data := by
      rw [join_map_zero, Piece.join_split mss _ data hlen]
    have hnew : ∀ q ∈ (Piece.split mss (pieceCount mss data) data).map
        fun p : Piece UInt8 => ((0 : Nat), p.2), q.1 = 0 := by
      intro q hq
      obtain ⟨p, -, rfl⟩ := List.mem_map.1 hq
      rfl
    have happ := h.stream_append hstream hnew
    rw [hjoin] at happ
    exact ⟨hjoin, _, .append _ _, happ⟩

/-- `data` was taken: it is the next message said, and its pieces are at the end of `snd_queue`. -/
structure Accepted (said : List (List UInt8)) (hist : List (Piece UInt8))
    (gs : List (List (Piece UInt8))) (data : List UInt8) (kcp kcp' : Ikcpcb) : Prop where
  queued : Queued kcp kcp'
  fit : ∀ seg ∈ kcp'.sndQueue, seg.data.length ≤ kcp.mss.toNat
  nsndQue : kcp'.nsndQue = UInt32.ofNat kcp'.sndQueue.length
  length_le : kcp'.sndQueue.length ≤ kcp.sndQueue.length + pieceCount kcp.mss.toNat data
  cut : ∃ gs', SameNumbered hist gs gs' ∧
    Cut kcp.stream (said ++ [data]) (hist ++ kcp'.sndQueue.map Segment.piece) gs'

/-- A stream takes data in two parts. -/
theorem Accepted.append {n : Nat} (hstream : kcp.stream ≠ 0) (hmss : 0 < kcp.mss.toNat)
    (hque : kcp'.sndQueue.length = kcp.sndQueue.length) (h : Queued kcp kcp')
    (hsame : SameNumbered hist gs gs') {kcp'' : Ikcpcb}
    (h' : Accepted (said ++ [data.take n]) hist gs' (data.drop n) kcp' kcp'') :
    Accepted said hist gs data kcp kcp'' := by
  have hmss' : kcp'.mss = kcp.mss := congrArg Config.mss h.config
  have hstream' : kcp'.stream = kcp.stream := congrArg Config.stream h.config
  obtain ⟨gs'', hsame', hcut⟩ := h'.cut
  refine ⟨h.trans h'.queued, hmss' ▸ h'.fit, h'.nsndQue, ?_, gs'', hsame.trans hsame', ?_⟩
  · have hle := h'.length_le
    have hmono : pieceCount kcp.mss.toNat (data.drop n) ≤ pieceCount kcp.mss.toNat data :=
      pieceCount_mono hmss (by rw [List.length_drop]; omega)
    rw [hmss'] at hle
    omega
  · rw [hstream'] at hcut
    refine hcut.of_flatten_eq hstream ?_
    simp

/-- The rest of the data is cut, unless there is too much of it. -/
theorem sendFragments_spec (sent : Nat) (hmss : 0 < kcp.mss.toNat)
    (h : Cut kcp.stream said (hist ++ kcp.sndQueue.map Segment.piece) gs)
    (hfit : ∀ seg ∈ kcp.sndQueue, seg.data.length ≤ kcp.mss.toNat)
    (hnque : kcp.nsndQue = UInt32.ofNat kcp.sndQueue.length) :
    (128 ≤ pieceCount kcp.mss.toNat data ∧
      sendFragments kcp sent data = (if kcp.stream ≠ 0 ∧ 0 < sent then (sent : Int) else -2, kcp)) ∨
    ((sendFragments kcp sent data).1 = sent + data.length ∧
      Accepted said hist gs data kcp (sendFragments kcp sent data).2) := by
  have hpos := pieceCount_pos hmss data
  have hwnd : IKCP_WND_RCV.toNat = 128 := rfl
  unfold sendFragments
  rw [hwnd]
  dsimp only
  rw [← pieceCount]
  by_cases hcount : 128 ≤ pieceCount kcp.mss.toNat data
  · rw [if_pos hcount]
    refine .inl ⟨hcount, ?_⟩
    split_ifs <;> rfl
  · rw [if_neg hcount, if_neg (Nat.pos_iff_ne_zero.1 hpos)]
    obtain ⟨hjoin, gs', hsame, hcut⟩ := h.fragments hist hmss (Nat.lt_of_not_le hcount)
    refine .inr ⟨?_, ⟨rfl, rfl, rfl, rfl, rfl, rfl, rfl⟩, ?_, ?_, ?_, gs', hsame, ?_⟩
    · rw [sum_length_eq, hjoin]
    · intro seg hs
      obtain hs | hs := List.mem_append.1 hs
      · exact hfit seg hs
      · exact data_le_of_mem_ikcpFragments hs
    · show kcp.nsndQue + UInt32.ofNat (pieceCount kcp.mss.toNat data) = UInt32.ofNat (List.length _)
      rw [List.length_append, length_ikcpFragments, UInt32.ofNat_add, hnque]
    · show List.length (kcp.sndQueue ++ _) ≤ _
      rw [List.length_append, length_ikcpFragments]
    · show Cut kcp.stream _ (hist ++ (kcp.sndQueue ++ _).map Segment.piece) gs'
      rw [List.map_append, ← List.append_assoc]
      exact hcut

/-- `ikcp_send` takes a part of its buffer, all of it where messages are kept, or nothing. -/
theorem ikcpSend_spec (buffer : List UInt8) (len : Int) (hmss : 0 < kcp.mss.toNat)
    (h : Cut kcp.stream said (hist ++ kcp.sndQueue.map Segment.piece) gs)
    (hfit : ∀ seg ∈ kcp.sndQueue, seg.data.length ≤ kcp.mss.toNat)
    (hnque : kcp.nsndQue = UInt32.ofNat kcp.sndQueue.length) :
    ((ikcpSend kcp buffer len).1 < 0 ∧ (ikcpSend kcp buffer len).2 = kcp) ∨
    ∃ n ≤ (buffer.take len.toNat).length, (ikcpSend kcp buffer len).1 = (n : Int) ∧
      (kcp.stream = 0 → n = (buffer.take len.toNat).length) ∧
      Accepted said hist gs ((buffer.take len.toNat).take n) kcp (ikcpSend kcp buffer len).2 := by
  unfold ikcpSend
  split_ifs with hlen hstream
  · exact .inl ⟨Int.negSucc_lt_zero _, rfl⟩
  all_goals
    generalize buffer.take len.toNat = data
    dsimp only
  · -- first the last segment takes what it has room for
    obtain ⟨hqueued, hle, hnque₁, hlength, hfit₁, hzero, gs₁, hsame₁, hcut₁⟩ :=
      extendLast_spec hstream h hfit data
    generalize extendLast kcp data = ext at *
    obtain ⟨sent, kcp₁⟩ := ext
    dsimp only at *
    have hconfig : kcp₁.stream = kcp.stream ∧ kcp₁.mss = kcp.mss :=
      ⟨congrArg Config.stream hqueued.config, congrArg Config.mss hqueued.config⟩
    have hpart : Accepted said hist gs (data.take sent) kcp kcp₁ := by
      refine ⟨hqueued, hfit₁, by rw [hnque₁, hnque, hlength], ?_, gs₁, hsame₁, hcut₁⟩
      rw [hlength]
      exact Nat.le_add_right _ _
    split_ifs with hall
    · exact .inr ⟨sent, hle, rfl, fun h0 => absurd h0 hstream, hpart⟩
    · have hrest : data.drop sent ≠ [] := fun hnil => hall ⟨hconfig.1 ▸ hstream, by rw [hnil]; rfl⟩
      have hspec := @sendFragments_spec kcp₁ (said ++ [data.take sent]) hist gs₁ (data.drop sent) sent
        (hconfig.2 ▸ hmss) (hconfig.1 ▸ hcut₁) (hconfig.2 ▸ hfit₁) (by rw [hnque₁, hnque, hlength])
      obtain ⟨-, heq⟩ | ⟨hret, hacc⟩ := hspec
      · rw [heq, hconfig.1]
        by_cases hsent : 0 < sent
        · rw [if_pos ⟨hstream, hsent⟩]
          exact .inr ⟨sent, hle, rfl, fun h0 => absurd h0 hstream, hpart⟩
        · obtain rfl : sent = 0 := by omega
          rw [if_neg (by simp)]
          have hdata : data ≠ [] := hrest
          exact .inl ⟨Int.negSucc_lt_zero _, hzero rfl hdata⟩
      · refine .inr ⟨data.length, Nat.le_refl _, ?_, fun _ => rfl, ?_⟩
        · rw [hret, List.length_drop]
          omega
        · rw [List.take_length]
          exact .append hstream hmss hlength hqueued hsame₁ hacc
  · obtain ⟨hcount, heq⟩ | ⟨hret, hacc⟩ := @sendFragments_spec kcp said hist gs data 0 hmss h hfit hnque
    all_goals
      rw [if_neg (by simp [hstream])]
      rw [List.drop_zero]
    · rw [heq, if_neg (by simp)]
      exact .inl ⟨Int.negSucc_lt_zero _, rfl⟩
    · refine .inr ⟨data.length, Nat.le_refl _, by rw [hret]; simp, fun _ => rfl, ?_⟩
      rw [List.take_length]
      exact hacc

end FwkMlib.Kcp
