import FwkMlib.Mmem.Locked

/-!
# The programs under the lock, run alone

* `run_mmemAlloc`, `run_mmemFree` and their siblings, `run_code` : one thread alone computes what
  `mmemAlloc`, `mmemFree` and so on do;
* `code_extends` : more rounds for the loops do not change a result.
-/

namespace FwkMlib.Mmem.Locked
open FwkMlib.Lib FwkMlib.Mlist

variable {addr block size total file fuel : Nat} {line : Int} {ans : Answer} {f : Mem → Mem}
  {s t : State}

/-! ## The flag of the lock -/

theorem blockTableGet_setLocked (s : State) (l : Bool) :
    blockTableGet { s with locked := l } = { blockTableGet s with locked := l } := by
  unfold blockTableGet
  split_ifs <;> rfl

theorem realFree_setLocked (s : State) (block : Nat) (l : Bool) (f : Mem → Mem) :
    realFree { s with locked := l } block f =
      (realFree s block f).map fun t => { t with locked := l } := by
  unfold realFree
  split_ifs <;> rfl

theorem realRealloc_setLocked (s : State) (l : Bool) (ans : Answer) :
    realRealloc { s with locked := l } block total ans =
      (realRealloc s block total ans).map fun t => { t with locked := l } := by
  unfold realRealloc
  split_ifs <;> rfl

theorem blockDel_setLocked (s : State) (block : Nat) (l : Bool) :
    blockDel { s with locked := l } block = { blockDel s block with locked := l } := rfl

theorem activate_setLocked (s : State) (l : Bool) :
    activate { s with locked := l } block = { activate s block with locked := l } := by
  have hget := blockTableGet_setLocked { s with mem := setBlockMagicActive s.mem block } l
  unfold activate
  dsimp only at hget ⊢
  rw [hget]
  rfl

theorem retire_setLocked (s : State) (l : Bool) :
    retire { s with locked := l } block = { retire s block with locked := l } := by
  have hget := blockTableGet_setLocked { s with mem := setBlockMagicFree s.mem block } l
  unfold retire
  dsimp only at hget ⊢
  rw [hget]
  rfl

theorem install_setLocked (s : State) (l : Bool) :
    install { s with locked := l } block size total file line =
      { install s block size total file line with locked := l } :=
  activate_setLocked { s with mem := blockUpdate s.mem block size total file line } l

theorem locked_activate (s : State) (block : Nat) : (activate s block).locked = s.locked :=
  locked_blockTableGet { s with mem := setBlockMagicActive s.mem block }

theorem activate_taken (hl : t.locked = false) :
    { activate { t with locked := true } block with locked := false } = activate t block := by
  rw [activate_setLocked]
  exact relock ((locked_activate t block).trans hl)

theorem install_taken (hl : t.locked = false) :
    { install { t with locked := true } block size total file line with locked := false } =
      install t block size total file line := by
  have hfree : (install t block size total file line).locked = false :=
    (locked_activate { t with mem := blockUpdate t.mem block size total file line } block).trans hl
  rw [install_setLocked]
  exact relock hfree

theorem realAlloc_setLocked (s : State) (l : Bool) (call : RealCall) :
    realAlloc { s with locked := l } call total ans =
      { realAlloc s call total ans with locked := l } := rfl

/-! ## Allocating and releasing -/

theorem run_checkBlock (block : Nat) (s : State) :
    (checkBlock block).run s = some (s, checkBlockMagicActive s.mem block) := by
  simp only [checkBlock, Prog.bind_eq, Prog.pure_eq, Prog.reads_bind, Prog.run_access]
  by_cases hc : checkBlockMagicActive s.mem block = 0
  · simp [hc]
  · simp [hc]

theorem run_takeOut (block : Nat) (s : State) :
    (takeOut block).run s = some (retire s block, ()) := by
  simp only [takeOut, Prog.bind_eq, Prog.writes_bind, Prog.run_access]
  rfl

theorem run_finish (s : State) : (finish block size total file line).run s =
    some (install s block size total file line, blockData block) := by
  simp only [finish, Prog.bind_eq, Prog.pure_eq, Prog.writes_bind, Prog.unlock_bind, Prog.run_access,
    Prog.run_release, Prog.run_ret]
  rfl

theorem run_mmemAlloc (hu : s.locked = false) :
    (mmemAlloc size file line ans).run s = Mmem.mmemAlloc s size file line ans := by
  by_cases hs : size = 0
  · subst hs
    simp [mmemAlloc, Mmem.mmemAlloc_zero hu]
  · cases ha : ans.addr with
    | none => simp [mmemAlloc, Mmem.mmemAlloc_refused hu hs ha, hs, ha]
    | some a =>
      have hl : (realAlloc s (.malloc (totalSize size)) (totalSize size) ans).locked = false := hu
      rw [Mmem.mmemAlloc_done hu hs ha, realAlloc_setLocked, install_taken hl]
      simp [mmemAlloc, hs, ha, run_finish]

theorem run_mmemCalloc {counts itemSize : Nat} (hu : s.locked = false) :
    (mmemCalloc counts itemSize file line ans).run s =
      Mmem.mmemCalloc s counts itemSize file line ans := by
  by_cases hs : counts = 0 ∨ itemSize = 0
  · simp [mmemCalloc, Mmem.mmemCalloc_zero hu hs, hs]
  · cases ha : ans.addr with
    | none => simp [mmemCalloc, Mmem.mmemCalloc_refused hu hs ha, hs, ha]
    | some a =>
      have hl : (realAlloc s (.calloc 1 (totalSize (counts * itemSize % 2 ^ 64)))
        (totalSize (counts * itemSize % 2 ^ 64)) ans).locked = false := hu
      rw [Mmem.mmemCalloc_done hu hs ha, realAlloc_setLocked, install_taken hl]
      simp [mmemCalloc, hs, ha, run_finish]

theorem realFree_taken (s : State) (block : Nat) (f : Mem → Mem) :
    realFree (retire { s with locked := true } block) block f =
      (realFree (retire s block) block f).map fun t => { t with locked := true } := by
  rw [retire_setLocked, realFree_setLocked]

theorem fields_realFree {b : Nat} (h : realFree s b f = some t) :
    t.locked = s.locked ∧ t.list = s.list := by
  unfold realFree at h
  split_ifs at h
  obtain rfl := Option.some.inj h
  exact ⟨rfl, rfl⟩

theorem run_mmemFree (hu : s.locked = false) :
    (mmemFree addr f).run s = (Mmem.mmemFree s addr f).map fun t => (t, ()) := by
  by_cases hn : addr = NULL
  · subst hn
    simp [mmemFree, Mmem.mmemFree_null hu, Prog.unlock]
  by_cases hc : checkBlockMagicActive s.mem (getBlock addr) = 0
  · have hrun : (mmemFree addr f).run s =
        (realFree (retire s (getBlock addr)) (getBlock addr) f).map fun t => (t, ()) := by
      simp [mmemFree, Prog.run_bind, run_checkBlock, run_takeOut, hn, hc, Prog.unlock,
        Option.map_eq_bind]
      rfl
    have htaken := realFree_taken s (getBlock addr) f
    rw [hrun]
    cases hf : realFree (retire s (getBlock addr)) (getBlock addr) f with
    | none =>
      rw [hf, Option.map_none] at htaken
      unfold retire at htaken
      simp only at htaken
      simp [Mmem.mmemFree, lock_eq hu, hn, hc, htaken]
    | some t =>
      rw [hf, Option.map_some] at htaken
      have hl : t.locked = false := (fields_realFree hf).1.trans ((locked_retire s _).trans hu)
      rw [Mmem.mmemFree_done hu hn hc htaken rfl]
      exact congrArg (fun t => some (t, ())) (relock hl).symm
  · simp [mmemFree, Mmem.mmemFree_refused hu hc, Prog.run_bind, run_checkBlock, hn, hc, Prog.unlock]

theorem realRealloc_taken (s : State) (block total : Nat) (ans : Answer) :
    realRealloc (retire { s with locked := true } block) block total ans =
      (realRealloc (retire s block) block total ans).map fun t => { t with locked := true } := by
  rw [retire_setLocked, realRealloc_setLocked]

theorem fields_realRealloc {b : Nat} (h : realRealloc s b total ans = some t) :
    t.locked = s.locked ∧ t.ready = s.ready := by
  unfold realRealloc at h
  split_ifs at h
  obtain rfl := Option.some.inj h
  exact ⟨rfl, rfl⟩

/-- A resize of a block that passes the check. -/
theorem run_mmemRealloc_checked (hu : s.locked = false) (hn : addr ≠ NULL) (hs : size ≠ 0)
    (hc : checkBlockMagicActive s.mem (getBlock addr) = 0) :
    (mmemRealloc addr size file line ans).run s = Mmem.mmemRealloc s addr size file line ans := by
  have htaken := realRealloc_taken s (getBlock addr) (totalSize size) ans
  cases hf : realRealloc (retire s (getBlock addr)) (getBlock addr) (totalSize size) ans with
  | none =>
    rw [hf, Option.map_none] at htaken
    unfold retire at htaken
    simp only at htaken
    simp [mmemRealloc, Mmem.mmemRealloc, Prog.run_bind, run_checkBlock, run_takeOut, lock_eq hu, hn,
      hs, hc, hf, htaken]
  | some t =>
    rw [hf, Option.map_some] at htaken
    obtain ⟨hlocked, hready⟩ := fields_realRealloc hf
    rw [locked_retire, hu] at hlocked
    rw [ready_retire] at hready
    cases ha : ans.addr with
    | none =>
      rw [Mmem.mmemRealloc_failed hu hn hs hc htaken rfl hready ha, activate_taken hlocked,
        activate_eq hready]
      simp [mmemRealloc, Prog.run_bind, run_checkBlock, run_takeOut, hn, hs, hc, hf, ha]
    | some a =>
      rw [Mmem.mmemRealloc_done hu hn hs hc htaken rfl hready ha, install_taken hlocked, install,
        activate_eq]
      · simp [mmemRealloc, Prog.run_bind, run_checkBlock, run_takeOut, hn, hs, hc, hf, ha]
      · exact hready

theorem run_mmemRealloc (hu : s.locked = false) :
    (mmemRealloc addr size file line ans).run s = Mmem.mmemRealloc s addr size file line ans := by
  by_cases hn : addr = NULL
  · subst hn
    rw [mmemRealloc_null, Mmem.mmemRealloc_null hu]
    exact run_mmemAlloc hu
  by_cases hs : size = 0
  · subst hs
    rw [mmemRealloc_zero hn, Mmem.mmemRealloc_zero hu hn, Prog.run_acquire, Prog.run_release,
      Prog.run_bind, run_mmemFree hu, Option.bind_map, Option.map_eq_bind]
    rfl
  by_cases hc : checkBlockMagicActive s.mem (getBlock addr) = 0
  · exact run_mmemRealloc_checked hu hn hs hc
  · simp [mmemRealloc, Mmem.mmemRealloc_refused hu hn hs hc, Prog.run_bind, run_checkBlock, hn, hs, hc]

theorem run_freeAllLoop (f : Nat → Mem → Mem) : ∀ fuel (s : State) pos n,
    (freeAllLoop s.list f fuel pos n).run s =
      (Mmem.freeAllLoop f fuel s pos n).map fun t => (t, ()) := by
  intro fuel
  induction fuel with
  | zero => exact fun s pos n => rfl
  | succ fuel ih =>
    intro s pos n
    unfold freeAllLoop Mmem.freeAllLoop
    by_cases hp : pos = s.list
    · simp [hp]
    · simp [hp, Prog.run_bind, run_checkBlock]
      apply Option.bind_congr
      intro t hf
      have hlist : t.list = s.list := (fields_realFree hf).2
      show (freeAllLoop s.list f fuel n (next t.mem n)).run t = _
      rw [← hlist]
      exact ih t n (next t.mem n)

theorem freeAllLoop_setLocked (f : Nat → Mem → Mem) (l : Bool) : ∀ fuel (s : State) pos n,
    Mmem.freeAllLoop f fuel { s with locked := l } pos n =
      (Mmem.freeAllLoop f fuel s pos n).map fun t => { t with locked := l } := by
  intro fuel
  induction fuel with
  | zero => exact fun s pos n => rfl
  | succ fuel ih =>
    intro s pos n
    unfold Mmem.freeAllLoop
    by_cases hp : pos = s.list
    · simp [hp]
    · have hfree := realFree_setLocked
        (blockDel { s with mem := setBlockMagicFree s.mem (nodeBlock pos) } (nodeBlock pos))
        (nodeBlock pos) l (f (nodeBlock pos))
      have hdel := blockDel_setLocked
        { s with mem := setBlockMagicFree s.mem (nodeBlock pos) } (nodeBlock pos) l
      dsimp only at hdel hfree
      simp only [hp, if_false, Option.bind_eq_bind]
      rw [hdel, hfree, Option.bind_map, Option.map_bind]
      exact congrArg _ (funext fun t => ih t n (next t.mem n))

theorem locked_freeAllLoop {f : Nat → Mem → Mem} {pos n : Nat}
    (h : Mmem.freeAllLoop f fuel s pos n = some t) : t.locked = s.locked := by
  have hset := freeAllLoop_setLocked f s.locked fuel s pos n
  have hself : ({ s with locked := s.locked } : State) = s := rfl
  rw [hself, h, Option.map_some] at hset
  have ht := congrArg State.locked (Option.some.inj hset)
  exact ht

theorem run_mmemFreeAll (hu : s.locked = false) (f : Nat → Mem → Mem) :
    (mmemFreeAll (s.regions.length + 1) f).run s = (Mmem.mmemFreeAll s f).map fun t => (t, ()) := by
  have hloop := run_freeAllLoop f (s.regions.length + 1) (blockTableGet s)
  rw [list_blockTableGet] at hloop
  have hget := blockTableGet_setLocked s true
  dsimp only at hget
  simp only [Mmem.mmemFreeAll, lock_eq hu, Option.bind_eq_bind, Option.bind_some, hget,
    freeAllLoop_setLocked]
  rw [list_blockTableGet, regions_blockTableGet]
  simp only [mmemFreeAll, Prog.bind_eq, Prog.lock_bind, Prog.writes_bind, Prog.reads_bind, id,
    Prog.run_acquire, Prog.run_access, Prog.run_bind, list_blockTableGet, hloop]
  cases hrun : Mmem.freeAllLoop f (s.regions.length + 1) (blockTableGet s)
      (next (blockTableGet s).mem s.list)
      (next (blockTableGet s).mem (next (blockTableGet s).mem s.list)) with
  | none => rfl
  | some t =>
    have hl : t.locked = false :=
      (locked_freeAllLoop hrun).trans ((locked_blockTableGet s).trans hu)
    exact congrArg (fun t => some (t, ())) (relock hl).symm

/-! ## Dumps -/

theorem run_dumpBlockLoop (list counts buf : Nat) : ∀ fuel (s : State) pos index size,
    (dumpBlockLoop list counts buf fuel pos index size).run s =
      (Mmem.dumpBlockLoop list counts buf fuel s.mem pos index size).map fun r =>
        ({ s with mem := r.1 }, r.2) := by
  intro fuel
  induction fuel with
  | zero => exact fun s pos index size => rfl
  | succ fuel ih =>
    intro s pos index size
    unfold dumpBlockLoop Mmem.dumpBlockLoop
    by_cases hp : pos = list
    · simp [hp]
    by_cases hc : index + 1 ≥ counts
    · simp [hp, hc]
    by_cases hsize : sub64 size 32 < 32
    · simp [hp, hc, hsize]
    · simp [hp, hc, hsize, ih]

theorem run_dumpCmd (hf : fuel = s.regions.length + 1) (cmd counts buf bufSize : Nat) :
    (dumpCmd fuel s.list cmd counts buf bufSize).run s =
      (Mmem.dumpCmd s cmd counts buf bufSize).map fun r => ({ s with mem := r.1 }, r.2) := by
  subst hf
  unfold dumpCmd Mmem.dumpCmd
  split_ifs
  · unfold dumpCmdCounts Mmem.dumpCmdCounts
    split_ifs <;> simp
  · unfold dumpCmdMmemInfo Mmem.dumpCmdMmemInfo
    split_ifs <;> simp
  · unfold dumpCmdMmemBlockInfo Mmem.dumpCmdMmemBlockInfo
    split_ifs <;> simp [run_dumpBlockLoop]
  · simp

theorem dumpCmd_setLocked (s : State) (l : Bool) (cmd counts buf bufSize : Nat) :
    Mmem.dumpCmd { s with locked := l } cmd counts buf bufSize =
      Mmem.dumpCmd s cmd counts buf bufSize := rfl

theorem run_mmemDump (hu : s.locked = false) (cmd counts buf bufSize : Nat) :
    (mmemDump (s.regions.length + 1) cmd counts buf bufSize).run s =
      Mmem.mmemDump s cmd counts buf bufSize := by
  have hfuel : s.regions.length + 1 = (blockTableGet s).regions.length + 1 := by
    rw [regions_blockTableGet]
  have hcmd := run_dumpCmd hfuel cmd counts buf bufSize
  have hget := blockTableGet_setLocked s true
  dsimp only at hget
  simp only [Mmem.mmemDump, lock_eq hu, Option.bind_eq_bind, Option.bind_some, hget,
    dumpCmd_setLocked]
  simp only [mmemDump, Prog.bind_eq, Prog.pure_eq, Prog.lock_bind, Prog.writes_bind, Prog.reads_bind,
    Prog.unlock_bind, id, Prog.run_acquire, Prog.run_access, Prog.run_bind, hcmd, Prog.run_release,
    Prog.run_ret]
  cases Mmem.dumpCmd (blockTableGet s) cmd counts buf bufSize with
  | none => rfl
  | some r =>
    have hl : ({ blockTableGet s with mem := r.1 } : State).locked = false :=
      (locked_blockTableGet s).trans hu
    exact congrArg (fun t => some (t, r.2)) (relock hl).symm

/-! ## The programs and the calls -/

/-- **The programs refine the operations** : one thread alone computes what the call does. -/
theorem run_code {c : Call} (hu : s.locked = false) (hc : ∀ x v, c ≠ .write x v) :
    (code (s.regions.length + 1) c).run s = (exec s c).map fun t => (t, ()) := by
  cases c with
  | alloc size file line ans =>
    rw [exec, ← run_mmemAlloc hu]
    exact Prog.run_discard _ s
  | calloc counts itemSize file line ans =>
    rw [exec, ← run_mmemCalloc hu]
    exact Prog.run_discard _ s
  | realloc addr size file line ans =>
    rw [exec, ← run_mmemRealloc hu]
    exact Prog.run_discard _ s
  | free addr f => exact run_mmemFree hu
  | freeAll f => exact run_mmemFreeAll hu f
  | dump cmd counts buf bufSize =>
    rw [exec, ← run_mmemDump hu]
    exact Prog.run_discard _ s
  | write x v => exact absurd rfl (hc x v)

/-! ## More fuel -/

theorem freeAllLoop_extends (list : Nat) (ans : Nat → Mem → Mem) : ∀ fuel pos n,
    (freeAllLoop list ans fuel pos n).Extends (freeAllLoop list ans (fuel + 1) pos n) := by
  intro fuel
  induction fuel with
  | zero =>
    intro pos n s r hr
    cases hr
  | succ fuel ih =>
    intro pos n
    rw [freeAllLoop, freeAllLoop]
    by_cases hp : pos = list
    · rw [if_pos hp, if_pos hp]
      exact .refl _
    · rw [if_neg hp, if_neg hp]
      refine .bind (.refl _) fun _ => .bind (.refl _) fun _ => .bind (.refl _) fun _ => ?_
      exact .bind (.refl _) fun _ => .bind (.refl _) fun n' => ih n n'

theorem dumpBlockLoop_extends (list counts buf : Nat) : ∀ fuel pos index size,
    (dumpBlockLoop list counts buf fuel pos index size).Extends
      (dumpBlockLoop list counts buf (fuel + 1) pos index size) := by
  intro fuel
  induction fuel with
  | zero =>
    intro pos index size s r hr
    cases hr
  | succ fuel ih =>
    intro pos index size
    rw [dumpBlockLoop, dumpBlockLoop]
    by_cases hp : pos = list
    · rw [if_pos hp, if_pos hp]
      exact .refl _
    rw [if_neg hp, if_neg hp]
    refine .bind (.refl _) fun _ => ?_
    by_cases hc : index + 1 ≥ counts
    · rw [if_pos hc, if_pos hc]
      exact .refl _
    rw [if_neg hc, if_neg hc]
    by_cases hs : sub64 size 32 < 32
    · rw [if_pos hs, if_pos hs]
      exact .refl _
    rw [if_neg hs, if_neg hs]
    exact .bind (.refl _) fun pos' => ih pos' (index + 1) (sub64 size 32)

theorem dumpCmd_extends (fuel list cmd counts buf bufSize : Nat) :
    (dumpCmd fuel list cmd counts buf bufSize).Extends
      (dumpCmd (fuel + 1) list cmd counts buf bufSize) := by
  unfold dumpCmd
  split_ifs
  · exact .refl _
  · exact .refl _
  · unfold dumpCmdMmemBlockInfo
    split_ifs
    · exact .refl _
    · exact .refl _
    · exact .refl _
    · exact .bind (.refl _) fun pos => dumpBlockLoop_extends list counts buf fuel pos 0 bufSize
  · exact .refl _

theorem code_extends (c : Call) (fuel : Nat) : (code fuel c).Extends (code (fuel + 1) c) := by
  cases c with
  | freeAll f =>
    refine .bind (.refl _) fun _ => .bind (.refl _) fun _ => .bind (.refl _) fun list => ?_
    refine .bind (.refl _) fun pos => .bind (.refl _) fun n => ?_
    exact .bind (freeAllLoop_extends list f fuel pos n) fun _ => .refl _
  | dump cmd counts buf bufSize =>
    refine .bind ?_ fun _ => .refl _
    refine .bind (.refl _) fun _ => .bind (.refl _) fun _ => .bind (.refl _) fun list => ?_
    exact .bind (dumpCmd_extends fuel list cmd counts buf bufSize) fun _ => .refl _
  | alloc size file line ans => exact .refl _
  | calloc counts itemSize file line ans => exact .refl _
  | realloc addr size file line ans => exact .refl _
  | free addr f => exact .refl _
  | write x v => exact .refl _

/-- Whatever the fuel, a program that ends has done what the call does. -/
theorem state_of_run_code {c : Call} {s' : State} {r : State × Unit} (hu : s.locked = false)
    (hc : ∀ x v, c ≠ .write x v) (he : exec s c = some s') (hr : (code fuel c).run s = some r) :
    r.1 = s' := by
  have hrun := run_code hu hc
  rw [he, Option.map_some] at hrun
  rw [Prog.Extends.unique (code_extends c) hr hrun]

end FwkMlib.Mmem.Locked
