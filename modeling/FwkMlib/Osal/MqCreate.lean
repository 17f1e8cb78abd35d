import FwkMlib.Lib.Ledger
import FwkMlib.Osal.PosixMq
import Mathlib.Algebra.Group.Int.Defs

/-!
# `osal_posix_mq_create`

The creation of an mq over the lock-free queue: five acquisitions, each undone by hand where a later
one fails. `osalPosixMqCreate` returns the pointer (`none` for `NULL`) with the `raw_queue` it leaves
in the mq, and the log of what it acquired, used and released; mutexes and conditions are acquired by
`init` and released by `destroy`.

* `CreateOk` : what a caller may expect of a call;
* `osalPosixMqCreate_ok_iff` : when a call meets it. The branches behind a failed `pthread_cond_init`
  and a failed queue do not return.
-/

namespace FwkMlib.Osal
open FwkMlib.Lib

structure CreateEnv where
  mq : Bool
  wMutex : Int
  rMutex : Int
  cond : Int
  rawQueue : Bool

/-- From `osal_lock_free_queue_init` on; `long` sizes are passed as `uint32_t`. -/
def createQueue (msgSize msgMax : Int) (env : CreateEnv) (log : List (Deed Part)) :
    Option (Option LockFreeQueue) × List (Deed Part) :=
  match osalLockFreeQueueInit (u32 msgSize.toNat) (u32 msgMax.toNat) env.rawQueue with
  | none =>
    -- the branch ends without a `return NULL`
    (some none, log ++ [.use .mq, .release .wMutex, .release .rMutex, .release .cond, .release .mq])
  | some queue => (some (some queue), log ++ [.acquire .rawQueue, .use .mq])

def osalPosixMqCreate (msgSize msgMax : Int) (env : CreateEnv) :
    Option (Option LockFreeQueue) × List (Deed Part) :=
  if msgSize ≤ 0 ∨ msgMax ≤ 0 then (none, []) else
  if env.mq = false then (none, []) else
  if env.wMutex ≠ 0 then (none, [.acquire .mq, .release .mq]) else
  if env.rMutex ≠ 0 then
    (none, [.acquire .mq, .acquire .wMutex, .release .wMutex, .release .mq]) else
  let log := [.acquire .mq, .acquire .wMutex, .acquire .rMutex]
  if env.cond ≠ 0 then
    -- this branch goes on as well
    createQueue msgSize msgMax env (log ++ [.release .wMutex, .release .rMutex, .release .mq])
  else createQueue msgSize msgMax env (log ++ [.acquire .cond])

def LockFreeQueue.ConfiguredFor (q : LockFreeQueue) (msgSize msgMax : Int) : Prop :=
  (q.msgSize : Int) = msgSize ∧ (q.totalSize : Int) = msgSize * msgMax

/-- All that a usable mq is made of. -/
def mqParts : Finset Part := {.mq, .wMutex, .rMutex, .cond, .rawQueue}

/-- What a call may return and leave behind. -/
structure CreateOk (msgSize msgMax : Int)
    (res : Option (Option LockFreeQueue) × List (Deed Part)) : Prop where
  /-- Nothing is used, destroyed or freed that is not there. -/
  lawful : (Deed.run res.2 ∅).isSome
  /-- Behind a pointer there is a complete mq. -/
  complete : ∀ rawQueue, res.1 = some rawQueue → Deed.run res.2 ∅ = some mqParts ∧
    ∃ q, rawQueue = some q ∧ q.ConfiguredFor msgSize msgMax
  /-- Behind `NULL` everything was undone. -/
  undone : res.1 = none → ∀ x, res.2.count (.release x) = res.2.count (.acquire x)

variable {msgSize msgMax : Int} {env : CreateEnv} {log : List (Deed Part)}

theorem CreateOk.null (h : Deed.run log ∅ = some ∅) : CreateOk msgSize msgMax (none, log) where
  lawful := by rw [h]; rfl
  complete := fun _ h => absurd h (by simp)
  undone := fun _ => Deed.count_release h

theorem u32_of_mul_lt {m n : Nat} (hn : 0 < n) (h : m * n < 2 ^ 32) : u32 m = m := by
  apply Nat.mod_eq_of_lt
  exact Nat.lt_of_le_of_lt (Nat.le_mul_of_pos_right m hn) h

/-- The sizes reach the queue exactly when the product of both is a `uint32_t`. -/
theorem configuredFor_iff {q : LockFreeQueue} (hs : 0 < msgSize) (hm : 0 < msgMax)
    (hq : osalLockFreeQueueInit (u32 msgSize.toNat) (u32 msgMax.toNat) env.rawQueue = some q) :
    q.ConfiguredFor msgSize msgMax ↔ msgSize * msgMax < 2 ^ 32 := by
  unfold osalLockFreeQueueInit at hq
  split_ifs at hq
  cases hq
  lift msgSize to ℕ using hs.le
  lift msgMax to ℕ using hm.le
  simp only [LockFreeQueue.ConfiguredFor, Int.toNat_natCast]
  constructor
  · rintro ⟨-, htotal⟩
    rw [← htotal]
    have : u32 (u32 msgSize * u32 msgMax) < 2 ^ 32 := Nat.mod_lt _ (by decide)
    exact_mod_cast this
  · intro hprod
    have hlt : msgSize * msgMax < 2 ^ 32 := by exact_mod_cast hprod
    have hsize : u32 msgSize = msgSize := u32_of_mul_lt (by exact_mod_cast hm) hlt
    have hmax : u32 msgMax = msgMax :=
      u32_of_mul_lt (by exact_mod_cast hs) (by rwa [Nat.mul_comm] at hlt)
    rw [hsize, hmax]
    refine ⟨rfl, ?_⟩
    rw [show u32 (msgSize * msgMax) = msgSize * msgMax from Nat.mod_eq_of_lt hlt]
    exact Int.natCast_mul msgSize msgMax

theorem init_isSome (hs : 0 < msgSize) (hm : 0 < msgMax) (hprod : msgSize * msgMax < 2 ^ 32)
    (halloc : env.rawQueue = true) :
    ∃ q, osalLockFreeQueueInit (u32 msgSize.toNat) (u32 msgMax.toNat) env.rawQueue = some q := by
  lift msgSize to ℕ using hs.le
  lift msgMax to ℕ using hm.le
  have hlt : msgSize * msgMax < 2 ^ 32 := by exact_mod_cast hprod
  have hs' : 0 < msgSize := by exact_mod_cast hs
  have hm' : 0 < msgMax := by exact_mod_cast hm
  have hsize : u32 msgSize = msgSize := u32_of_mul_lt hm' hlt
  have hmax : u32 msgMax = msgMax := u32_of_mul_lt hs' (by rwa [Nat.mul_comm] at hlt)
  unfold osalLockFreeQueueInit
  rw [Int.toNat_natCast, Int.toNat_natCast, hsize, hmax, if_neg (by omega), halloc]
  exact ⟨_, rfl⟩

theorem run_created : Deed.run [.acquire .mq, .acquire .wMutex, .acquire .rMutex, .acquire .cond,
    .acquire .rawQueue, .use .mq] ∅ = some mqParts := by
  decide

/-- From a condition that was initialised on. -/
theorem createQueue_ok_iff (hs : 0 < msgSize) (hm : 0 < msgMax) :
    CreateOk msgSize msgMax (createQueue msgSize msgMax env
        [.acquire .mq, .acquire .wMutex, .acquire .rMutex, .acquire .cond]) ↔
      env.rawQueue = true ∧ msgSize * msgMax < 2 ^ 32 := by
  unfold createQueue
  cases hq : osalLockFreeQueueInit (u32 msgSize.toNat) (u32 msgMax.toNat) env.rawQueue with
  | none =>
    constructor
    · intro h
      obtain ⟨-, q, hnone, -⟩ := h.complete none rfl
      cases hnone
    · rintro ⟨halloc, hprod⟩
      obtain ⟨q, hsome⟩ := init_isSome hs hm hprod halloc
      rw [hq] at hsome
      cases hsome
  | some q =>
    have halloc : env.rawQueue = true := by
      unfold osalLockFreeQueueInit at hq
      split_ifs at hq with _ hfail
      exact Bool.eq_true_of_not_eq_false hfail
    constructor
    · intro h
      obtain ⟨-, q', hsome, hconf⟩ := h.complete (some q) rfl
      obtain rfl := Option.some.inj hsome
      exact ⟨halloc, (configuredFor_iff hs hm hq).1 hconf⟩
    · rintro ⟨-, hprod⟩
      refine ⟨Option.isSome_of_eq_some run_created, ?_, fun h => absurd h (by simp)⟩
      rintro _ ⟨⟩
      exact ⟨run_created, q, rfl, (configuredFor_iff hs hm hq).2 hprod⟩

/-- Behind a condition that was not initialised the freed mq is used. -/
theorem not_createQueue_ok :
    ¬ CreateOk msgSize msgMax (createQueue msgSize msgMax env
      [.acquire .mq, .acquire .wMutex, .acquire .rMutex, .release .wMutex, .release .rMutex,
        .release .mq]) := by
  intro h
  have hnone : ∀ log : List (Deed Part), Deed.run ([.acquire .mq, .acquire .wMutex, .acquire .rMutex,
      .release .wMutex, .release .rMutex, .release .mq] ++ log) ∅ = Deed.run log ∅ :=
    fun log => Deed.run_append _ log ∅
  have hlawful := h.lawful
  unfold createQueue at hlawful
  split at hlawful
  · rw [hnone] at hlawful
    exact absurd hlawful (by decide)
  · rw [hnone] at hlawful
    exact absurd hlawful (by decide)

/-- **When `osal_posix_mq_create` keeps its resources straight**: exactly when it is refused, fails
before the condition, or succeeds in everything with sizes whose product is a `uint32_t`. -/
theorem osalPosixMqCreate_ok_iff (msgSize msgMax : Int) (env : CreateEnv) :
    CreateOk msgSize msgMax (osalPosixMqCreate msgSize msgMax env) ↔
      msgSize ≤ 0 ∨ msgMax ≤ 0 ∨ env.mq = false ∨ env.wMutex ≠ 0 ∨ env.rMutex ≠ 0 ∨
        (env.cond = 0 ∧ env.rawQueue = true ∧ msgSize * msgMax < 2 ^ 32) := by
  unfold osalPosixMqCreate
  split_ifs with hsizes hmq hw hr hc
  · exact iff_of_true (.null rfl) (hsizes.elim .inl fun h => .inr (.inl h))
  · exact iff_of_true (.null rfl) (.inr (.inr (.inl hmq)))
  · exact iff_of_true (.null (by decide)) (.inr (.inr (.inr (.inl hw))))
  · exact iff_of_true (.null (by decide)) (.inr (.inr (.inr (.inr (.inl hr)))))
  · refine iff_of_false not_createQueue_ok ?_
    obtain ⟨hs, hm⟩ := not_or.1 hsizes
    simp [hs, hm, hmq, hw, hr, hc]
  · obtain ⟨hs, hm⟩ := not_or.1 hsizes
    refine (createQueue_ok_iff (Int.not_le.1 hs) (Int.not_le.1 hm)).trans ?_
    simp [hs, hm, hmq, not_not.1 hw, not_not.1 hr, not_not.1 hc]

/-- `pthread_cond_init` fails: the mq is freed, written to and returned. -/
theorem osalPosixMqCreate_dangling : ∃ q log,
    osalPosixMqCreate 4 4 ⟨true, 0, 0, 11, true⟩ = (some (some q), log) ∧ Deed.run log ∅ = none ∧
    ¬ CreateOk 4 4 (osalPosixMqCreate 4 4 ⟨true, 0, 0, 11, true⟩) :=
  ⟨_, _, rfl, by decide, fun h => absurd h.lawful (by decide)⟩

end FwkMlib.Osal
