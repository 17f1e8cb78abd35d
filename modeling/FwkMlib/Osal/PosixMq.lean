import FwkMlib.Osal.LockFreeQueue
import Mathlib.Logic.Function.Basic

/-!
# The message queue over the lock-free queue

`osal_posix.c` when `no_use_lock_free_queue` is not defined: `osal_posix_mq_send`, `osal_posix_mq_recv`
and `osal_posix_mq_destroy` on one mq, cut into steps on the shared mq. Every call is a party of its
own (`Call`), and a run interleaves their steps in any order (`Mq.step`). Memory is sequentially
consistent and the pthread calls succeed: a lock step waits until the mutex is free, a wait releases
the mutex and blocks in one step, a signal wakes one blocked receiver, a broadcast wakes all of them,
a blocked receiver may also wake on its own (`Label.wake`), and destroying the condition waits until
nobody is blocked on it.

`none` stands for a step that is not enabled, or for a fault of the lock-free queue.
-/

namespace FwkMlib.Osal
open FwkMlib.Lib

def OSAL_API_OK : Int := 0
def OSAL_API_FAIL : Int := 1
def OSAL_API_TIMEDOUT : Int := 2
def OSAL_API_INVAL : Int := 3
def OSAL_WAITFOREVER : Int := -1
def ETIMEDOUT : Int := 110

inductive Party where
  | call (i : Nat)
  | destroy
  deriving DecidableEq, Repr

/-- `struct osal_posix_mq_s`, with the calls blocked on `cond`, and with the messages accepted by
sends and delivered to receives so far, each with the call that did it. -/
structure MqShared where
  exitFlag : Bool
  wMutex : Option Party
  rMutex : Option Party
  cond : List Nat
  rawQueue : LockFreeQueue
  accepted : List (Nat × List UInt8)
  popped : List (Nat × List UInt8)

inductive SendPc where
  | lockW
  | testFull
  | copy₁
  | copy₂
  | advance
  | unlockFail
  | unlockW
  | lockR
  | signal
  | unlockR
  | returned (ret : Int)
  deriving DecidableEq, Repr

inductive RecvPc where
  | lockR
  | testEmpty
  | copy₁
  | copy₂
  | advance
  | wait
  | blocked
  | relock (ret : Int)
  | checkExit
  | unlockR (ret : Int)
  | returned (ret : Int)
  deriving DecidableEq, Repr

/-- A call: not made yet, or a send or receive with the caller's buffer. -/
inductive Call where
  | idle
  | send (pc : SendPc) (msg : List UInt8)
  | recv (pc : RecvPc) (timeoutMs : Int) (msg : List UInt8)
  deriving DecidableEq, Repr

inductive DestroyPc where
  | idle
  | setExit
  | broadcast
  | lockR
  | deinit
  | unlockR
  | destroyW
  | destroyR
  | destroyCond
  | free
  | returned
  deriving DecidableEq, Repr

/-- The parameter check of `osal_posix_mq_send`. -/
def osalPosixMqSend (msg : Option (List UInt8)) (msgSize : Int) : Call :=
  match msg with
  | none => .send (.returned OSAL_API_INVAL) []
  | some msg => if msgSize ≤ 0 then .send (.returned OSAL_API_INVAL) msg else .send .lockW msg

/-- The parameter check of `osal_posix_mq_recv`. -/
def osalPosixMqRecv (msg : Option (List UInt8)) (msgSize timeoutMs : Int) : Call :=
  match msg with
  | none => .recv (.returned OSAL_API_INVAL) timeoutMs []
  | some msg =>
    if msgSize ≤ 0 then .recv (.returned OSAL_API_INVAL) timeoutMs msg
    else .recv .lockR timeoutMs msg

/-- One step of a send: the shared mq, the next step, and the receiver woken. `choice` is the
receiver that `pthread_cond_signal` picks. -/
def sendStep (sh : MqShared) (i : Nat) (choice : Option Nat) (msg : List UInt8) :
    SendPc → Option (MqShared × SendPc × List Nat)
  | .lockW => if sh.wMutex = none then some ({ sh with wMutex := some (.call i) }, .testFull, [])
    else none
  | .testFull => do
    let full ← sh.rawQueue.isFull
    some (sh, if full then .unlockFail else .copy₁, [])
  | .copy₁ => do
    let queue ← sh.rawQueue.pushCopy₁ msg
    some ({ sh with rawQueue := queue }, .copy₂, [])
  | .copy₂ => do
    let queue ← sh.rawQueue.pushCopy₂ msg
    some ({ sh with rawQueue := queue }, .advance, [])
  | .advance => do
    let queue ← sh.rawQueue.pushAdvance
    some ({ sh with
      rawQueue := queue
      accepted := sh.accepted ++ [(i, msg.take sh.rawQueue.msgSize)] }, .unlockW, [])
  | .unlockFail => some ({ sh with wMutex := none }, .returned OSAL_API_FAIL, [])
  | .unlockW => some ({ sh with wMutex := none }, .lockR, [])
  | .lockR => if sh.rMutex = none then some ({ sh with rMutex := some (.call i) }, .signal, [])
    else none
  | .signal =>
    match choice with
    | none => if sh.cond = [] then some (sh, .unlockR, []) else none
    | some j => if j ∈ sh.cond then some ({ sh with cond := sh.cond.erase j }, .unlockR, [j])
      else none
  | .unlockR => some ({ sh with rMutex := none }, .returned OSAL_API_OK, [])
  | .returned _ => none

/-- One step of a receive: the shared mq, the next step and the caller's buffer. The variable `ret`
of the source is `0` whenever the pop succeeds. -/
def recvStep (sh : MqShared) (i : Nat) (timeoutMs : Int) (msg : List UInt8) :
    RecvPc → Option (MqShared × RecvPc × List UInt8)
  | .lockR => if sh.rMutex = none then some ({ sh with rMutex := some (.call i) }, .testEmpty, msg)
    else none
  | .testEmpty =>
    if sh.rawQueue.isEmpty then
      if timeoutMs = 0 then some (sh, .unlockR OSAL_API_TIMEDOUT, msg) else some (sh, .wait, msg)
    else some (sh, .copy₁, msg)
  | .copy₁ => do
    let msg ← sh.rawQueue.popCopy₁ msg
    some (sh, .copy₂, msg)
  | .copy₂ => do
    let msg ← sh.rawQueue.popCopy₂ msg
    some (sh, .advance, msg)
  | .advance => do
    let queue ← sh.rawQueue.popAdvance
    some ({ sh with
      rawQueue := queue
      popped := sh.popped ++ [(i, msg.take sh.rawQueue.msgSize)] }, .unlockR OSAL_API_OK, msg)
  | .wait => some ({ sh with rMutex := none, cond := sh.cond ++ [i] }, .blocked, msg)
  | .blocked => none
  | .relock ret =>
    if sh.rMutex = none then
      some ({ sh with rMutex := some (.call i) },
        if ret = ETIMEDOUT then .unlockR OSAL_API_TIMEDOUT else .checkExit, msg)
    else none
  | .checkExit => some (sh, if sh.exitFlag then .unlockR OSAL_API_FAIL else .testEmpty, msg)
  | .unlockR ret => some ({ sh with rMutex := none }, .returned ret, msg)
  | .returned _ => none

def Call.step (sh : MqShared) (i : Nat) (choice : Option Nat) :
    Call → Option (MqShared × Call × List Nat)
  | .idle => none
  | .send pc msg => do
    let (sh, pc, woken) ← sendStep sh i choice msg pc
    some (sh, .send pc msg, woken)
  | .recv pc timeoutMs msg => do
    let (sh, pc, msg) ← recvStep sh i timeoutMs msg pc
    some (sh, .recv pc timeoutMs msg, [])

def destroyStep (sh : MqShared) : DestroyPc → Option (MqShared × DestroyPc × List Nat)
  | .idle => none
  | .setExit => some ({ sh with exitFlag := true }, .broadcast, [])
  | .broadcast => some ({ sh with cond := [] }, .lockR, sh.cond)
  | .lockR => if sh.rMutex = none then some ({ sh with rMutex := some .destroy }, .deinit, [])
    else none
  | .deinit => some (sh, .unlockR, [])
  | .unlockR => some ({ sh with rMutex := none }, .destroyW, [])
  | .destroyW => some (sh, .destroyR, [])
  | .destroyR => some (sh, .destroyCond, [])
  | .destroyCond => if sh.cond = [] then some (sh, .free, []) else none
  | .free => some (sh, .returned, [])
  | .returned => none

/-- The parts of the mq that `osal_posix_mq_destroy` takes apart; `mq` is the block with
`exit_flag`. -/
inductive Part where
  | wMutex
  | rMutex
  | cond
  | rawQueue
  | mq
  deriving DecidableEq, Repr

/-- What destroy has destroyed or freed before its next step. -/
def DestroyPc.gone : DestroyPc → List Part
  | .idle | .setExit | .broadcast | .lockR | .deinit => []
  | .unlockR | .destroyW => [.rawQueue]
  | .destroyR => [.rawQueue, .wMutex]
  | .destroyCond => [.rawQueue, .wMutex, .rMutex]
  | .free => [.rawQueue, .wMutex, .rMutex, .cond]
  | .returned => [.rawQueue, .wMutex, .rMutex, .cond, .mq]

/-- What the next step of a receive locks or unlocks, waits on, reads or touches. -/
def RecvPc.uses : RecvPc → List Part
  | .lockR | .relock _ | .unlockR _ => [.rMutex]
  | .testEmpty | .copy₁ | .copy₂ | .advance => [.rawQueue]
  | .wait => [.rMutex, .cond]
  | .checkExit => [.mq]
  | .blocked | .returned _ => []

/-- A receiver blocked on the condition is on its way to take the mutex again. -/
def Call.wake (ret : Int) : Call → Call
  | .recv .blocked timeoutMs msg => .recv (.relock ret) timeoutMs msg
  | c => c

/-- The mq, the calls made on it and the call that destroys it. -/
structure Mq where
  sh : MqShared
  calls : Nat → Call
  destroy : DestroyPc

/-- What happens next: a call is made, a call takes a step, a blocked receiver wakes by itself, or
destroy is called or takes a step. -/
inductive Label where
  | send (i : Nat) (msg : Option (List UInt8)) (msgSize : Int)
  | recv (i : Nat) (msg : Option (List UInt8)) (msgSize timeoutMs : Int)
  | call (i : Nat) (choice : Option Nat)
  | wake (i : Nat) (ret : Int)
  | callDestroy
  | destroy
  deriving DecidableEq, Repr

namespace Mq

/-- The calls after those in `woken` were woken with result `0`. -/
def wakeAll (woken : List Nat) (calls : Nat → Call) : Nat → Call := fun j =>
  if j ∈ woken then (calls j).wake 0 else calls j

/-- A new call, made before the mq is destroyed and with room for a message in its buffer. -/
def start (s : Mq) (i : Nat) (msg : Option (List UInt8)) (c : Call) : Option Mq :=
  if s.calls i = .idle ∧ s.destroy = .idle ∧ ∀ m ∈ msg, s.sh.rawQueue.msgSize ≤ m.length then
    some { s with calls := Function.update s.calls i c }
  else none

/-- A blocked receiver wakes without a signal: spuriously, or because its time is up. -/
def wakeUp (s : Mq) (i : Nat) (ret : Int) : Option Mq :=
  match s.calls i with
  | .recv .blocked timeoutMs msg =>
    if ret = 0 ∨ (ret = ETIMEDOUT ∧ timeoutMs ≠ OSAL_WAITFOREVER) then
      some { s with
        sh := { s.sh with cond := s.sh.cond.erase i }
        calls := Function.update s.calls i (.recv (.relock ret) timeoutMs msg) }
    else none
  | _ => none

def step (s : Mq) : Label → Option Mq
  | .send i msg msgSize => s.start i msg (osalPosixMqSend msg msgSize)
  | .recv i msg msgSize timeoutMs => s.start i msg (osalPosixMqRecv msg msgSize timeoutMs)
  | .call i choice => do
    let (sh, c, woken) ← (s.calls i).step s.sh i choice
    some { s with sh := sh, calls := Function.update (wakeAll woken s.calls) i c }
  | .wake i ret => s.wakeUp i ret
  | .callDestroy => if s.destroy = .idle then some { s with destroy := .setExit } else none
  | .destroy => do
    let (sh, destroy, woken) ← destroyStep s.sh s.destroy
    some { sh := sh, calls := wakeAll woken s.calls, destroy := destroy }

/-- A fresh mq around the queue `q`, on which no call was made. -/
def init (q : LockFreeQueue) : Mq where
  sh :=
    { exitFlag := false
      wMutex := none
      rMutex := none
      cond := []
      rawQueue := q
      accepted := []
      popped := [] }
  calls := fun _ => .idle
  destroy := .idle

def run : List Label → Mq → Option Mq
  | [], s => some s
  | l :: ls, s => do
    let s ← s.step l
    run ls s

inductive Reachable (q : LockFreeQueue) : Mq → Prop
  | init : Reachable q (init q)
  | step {s s' : Mq} {l : Label} (h : Reachable q s) (hs : s.step l = some s') : Reachable q s'

theorem Reachable.run {q : LockFreeQueue} {ls : List Label} : ∀ {s s' : Mq}, Reachable q s →
    Mq.run ls s = some s' → Reachable q s' := by
  induction ls with
  | nil => intro s s' h hrun; cases hrun; exact h
  | cons l ls ih =>
    intro s s' h hrun
    obtain ⟨s₁, hs, hrun⟩ := Option.bind_eq_some_iff.1 hrun
    exact ih (h.step hs) hrun

end Mq

end FwkMlib.Osal
