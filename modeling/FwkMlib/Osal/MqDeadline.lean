import FwkMlib.Osal.PosixMq
import Mathlib.Algebra.Group.Int.Defs

/-!
# The deadline of `osal_posix_mq_recv`

The retry loop of a receive with a time-out, over everything that happens to it: what each pop finds,
what `gettimeofday` reads when a deadline is computed, how each wait ends.

* `nanos_calcTimedwait` : a deadline is the reading it is computed from plus the time-out, and is
  normalised;
* `recvLoop_deadlines_iff` : every wait gets its own reading, so the deadlines are all the first one
  exactly when the clock reads the same at every wait.
-/

namespace FwkMlib.Osal

structure Timeval where
  sec : Int
  usec : Int
  deriving DecidableEq, Repr

structure Timespec where
  sec : Int
  nsec : Int
  deriving DecidableEq, Repr

def Timeval.nanos (tv : Timeval) : Int := tv.sec * 1000000000 + tv.usec * 1000

def Timespec.nanos (tm : Timespec) : Int := tm.sec * 1000000000 + tm.nsec

/-- What `gettimeofday` returns. -/
def Timeval.Normal (tv : Timeval) : Prop := 0 ≤ tv.usec ∧ tv.usec < 1000000

/-- What `pthread_cond_timedwait` accepts. -/
def Timespec.Normal (tm : Timespec) : Prop := 0 ≤ tm.nsec ∧ tm.nsec < 1000000000

/-- `osal_posix_calc_timedwait(tm, ms)` when `gettimeofday` reads `tv`. -/
def osalPosixCalcTimedwait (tv : Timeval) (ms : Nat) : Timespec :=
  let sec := tv.sec + (ms / 1000 : Nat)
  let usec := tv.usec + (ms % 1000 * 1000 : Nat)
  if usec ≥ 1000000 then ⟨sec + 1, (usec - 1000000) * 1000⟩ else ⟨sec, usec * 1000⟩

/-- The single carry is enough: the sum stays below two seconds. -/
theorem normal_calcTimedwait {tv : Timeval} (h : tv.Normal) (ms : Nat) :
    (osalPosixCalcTimedwait tv ms).Normal := by
  obtain ⟨h0, h1⟩ := h
  unfold osalPosixCalcTimedwait Timespec.Normal
  dsimp only
  split_ifs
  · dsimp only
    omega
  · dsimp only
    omega

theorem nanos_calcTimedwait (tv : Timeval) (ms : Nat) :
    (osalPosixCalcTimedwait tv ms).nanos = tv.nanos + ms * 1000000 := by
  unfold osalPosixCalcTimedwait Timespec.nanos Timeval.nanos
  dsimp only
  split_ifs
  · dsimp only
    omega
  · dsimp only
    omega

def EPERM : Int := 1
def ENOMEM : Int := 12
def EINVAL : Int := 22
def EOVERFLOW : Int := 75

def OSAL_API_NOMEM : Int := 4
def OSAL_API_OVERFLOW : Int := 5
def OSAL_API_PERM : Int := 6

def errno2Ret (err : Int) : Int :=
  if err = ETIMEDOUT then OSAL_API_TIMEDOUT
  else if err = EINVAL then OSAL_API_INVAL
  else if err = EOVERFLOW then OSAL_API_OVERFLOW
  else if err = ENOMEM then OSAL_API_NOMEM
  else if err = EPERM then OSAL_API_PERM
  else OSAL_API_FAIL

/-- What one turn of the retry loop meets: whether the pop finds the queue empty, the reading of
`gettimeofday`, the result of the wait, and `exit_flag` after it. -/
structure Turn where
  empty : Bool
  clock : Timeval
  waitRet : Int
  exitFlag : Bool
  deriving DecidableEq, Repr

/-- The retry loop of `osal_posix_mq_recv`: the deadlines handed to `pthread_cond_timedwait`, and the
return value when the turns suffice to leave the loop. `timeout_ms` becomes a `uint32_t`. -/
def recvLoop (timeoutMs : Int) : List Turn → List Timespec × Option Int
  | [] => ([], none)
  | t :: ts =>
    if t.empty = false then ([], some OSAL_API_OK)
    else if timeoutMs = 0 then ([], some OSAL_API_TIMEDOUT)
    else
      let tm := if timeoutMs = OSAL_WAITFOREVER then []
        else [osalPosixCalcTimedwait t.clock (timeoutMs % 2 ^ 32).toNat]
      if t.waitRet = ETIMEDOUT then (tm, some OSAL_API_TIMEDOUT)
      else if t.waitRet ≠ 0 then (tm, some (errno2Ret t.waitRet))
      else if t.exitFlag then (tm, some OSAL_API_FAIL)
      else (tm ++ (recvLoop timeoutMs ts).1, (recvLoop timeoutMs ts).2)

def Turn.Retries (t : Turn) : Prop := t.waitRet = 0 ∧ t.exitFlag = false

instance (t : Turn) : Decidable t.Retries := inferInstanceAs (Decidable (_ ∧ _))

/-- The readings of the clock over the turns that wait: those up to the first that finds a message or
does not go on. -/
def waitClocks : List Turn → List Timeval
  | [] => []
  | t :: ts =>
    if t.empty then t.clock :: if t.Retries then waitClocks ts else []
    else []

variable {timeoutMs : Int} {turns : List Turn}

/-- Each wait of a finite time-out has the deadline of its own reading. -/
theorem recvLoop_deadlines (h0 : 0 < timeoutMs) (h1 : timeoutMs < 2 ^ 31) :
    (recvLoop timeoutMs turns).1 =
      (waitClocks turns).map fun tv => osalPosixCalcTimedwait tv timeoutMs.toNat := by
  have hne : timeoutMs ≠ 0 := Int.ne_of_gt h0
  have hfin : timeoutMs ≠ OSAL_WAITFOREVER := by
    unfold OSAL_WAITFOREVER
    omega
  have hms : (timeoutMs % 2 ^ 32).toNat = timeoutMs.toNat := by
    rw [Int.emod_eq_of_lt h0.le (by omega)]
  induction turns with
  | nil => rfl
  | cons t ts ih =>
    unfold recvLoop waitClocks
    rw [if_neg hne, if_neg hfin, hms]
    cases t.empty with
    | false => rfl
    | true =>
      simp only [Bool.true_eq_false, if_false, if_true]
      by_cases hgo : t.Retries
      · rw [if_pos hgo, List.map_cons, ← ih, if_neg (by rw [hgo.1]; decide),
          if_neg (not_not.2 hgo.1), hgo.2]
        rfl
      · rw [if_neg hgo]
        split_ifs with htime hret hexit
        · rfl
        · rfl
        · rfl
        · exact absurd ⟨not_not.1 hret, Bool.eq_false_of_not_eq_true hexit⟩ hgo

theorem mem_waitClocks {tv : Timeval} (h : tv ∈ waitClocks turns) : ∃ t ∈ turns, t.clock = tv := by
  induction turns with
  | nil => exact absurd h List.not_mem_nil
  | cons t ts ih =>
    unfold waitClocks at h
    split_ifs at h
    · rcases List.mem_cons.1 h with rfl | h
      · exact ⟨t, List.mem_cons_self, rfl⟩
      · obtain ⟨u, hu, hclock⟩ := ih h
        exact ⟨u, List.mem_cons_of_mem t hu, hclock⟩
    · obtain rfl := List.mem_singleton.1 h
      exact ⟨t, List.mem_cons_self, rfl⟩
    · exact absurd h List.not_mem_nil

/-- **The deadlines of a receive**: all of them are normalised, and they are the first reading plus
the time-out exactly when the clock reads the same at every wait. -/
theorem recvLoop_deadlines_iff (h0 : 0 < timeoutMs) (h1 : timeoutMs < 2 ^ 31) {first : Turn}
    {rest : List Turn} (hclock : ∀ t ∈ first :: rest, t.clock.Normal) :
    (∀ tm ∈ (recvLoop timeoutMs (first :: rest)).1, tm.Normal) ∧
    ((∀ tm ∈ (recvLoop timeoutMs (first :: rest)).1,
        tm.nanos = first.clock.nanos + timeoutMs * 1000000) ↔
      ∀ tv ∈ waitClocks (first :: rest), tv.nanos = first.clock.nanos) := by
  have hms : (timeoutMs.toNat : Int) = timeoutMs := Int.toNat_of_nonneg h0.le
  rw [recvLoop_deadlines h0 h1]
  constructor
  · intro tm htm
    obtain ⟨tv, htv, rfl⟩ := List.mem_map.1 htm
    obtain ⟨t, ht, rfl⟩ := mem_waitClocks htv
    exact normal_calcTimedwait (hclock t ht) _
  · constructor
    · intro h tv htv
      have := h _ (List.mem_map_of_mem htv)
      rw [nanos_calcTimedwait, hms] at this
      omega
    · intro h tm htm
      obtain ⟨tv, htv, rfl⟩ := List.mem_map.1 htm
      rw [nanos_calcTimedwait, hms, h tv htv]

/-- Woken twice within the microsecond of the first reading, the second time with a message. -/
def twoWaits : List Turn :=
  [⟨true, ⟨7, 999999⟩, 0, false⟩, ⟨true, ⟨7, 999999⟩, 0, false⟩, ⟨false, ⟨7, 999999⟩, 0, false⟩]

theorem recvLoop_deadlines_iff_two :
    recvLoop 1500 twoWaits = ([⟨9, 499999000⟩, ⟨9, 499999000⟩], some OSAL_API_OK) ∧
    (∀ tm ∈ (recvLoop 1500 twoWaits).1, tm.Normal) ∧
    ∀ tm ∈ (recvLoop 1500 twoWaits).1, tm.nanos = 7999999000 + 1500 * 1000000 := by
  have hclock : ∀ t ∈ twoWaits, t.clock.Normal := by
    unfold twoWaits Timeval.Normal
    decide
  obtain ⟨hnormal, hiff⟩ := @recvLoop_deadlines_iff 1500 (by decide) (by decide) _ _ hclock
  exact ⟨by decide, hnormal, hiff.2 (by decide)⟩

/-- Woken after half a second with the queue empty, a receive of one second waits for another whole
one. -/
theorem recvLoop_extends : recvLoop 1000 [⟨true, ⟨0, 0⟩, 0, false⟩,
      ⟨true, ⟨0, 500000⟩, ETIMEDOUT, false⟩] =
      ([⟨1, 0⟩, ⟨1, 500000000⟩], some OSAL_API_TIMEDOUT) ∧
    (⟨1, 500000000⟩ : Timespec).nanos ≠ (⟨0, 0⟩ : Timeval).nanos + 1000 * 1000000 := by
  decide

end FwkMlib.Osal
