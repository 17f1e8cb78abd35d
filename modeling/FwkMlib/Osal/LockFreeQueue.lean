import FwkMlib.Lib.Bytes

/-!
# The lock-free queue

`osal_lock_free_queue.c`: a byte ring with two byte offsets. `uint32_t` values are naturals and every
sum and product is taken modulo `2 ^ 32`. `none` stands for a remainder by zero or a copy outside the
bytes allocated for `buffer` or outside the caller's buffer.

A push and a pop are each cut at the points where a concurrent caller can be interrupted: the test,
the two copies and the store of the index.
-/

namespace FwkMlib.Osal
open FwkMlib.Lib

def u32 (n : Nat) : Nat := n % 2 ^ 32

/-- `osal_lock_free_queue_t`, with `buffer[i]` for `i < bufferSize` allocated. -/
structure LockFreeQueue where
  write : Nat
  read : Nat
  msgSize : Nat
  totalSize : Nat
  buffer : Mem
  bufferSize : Nat

/-- `osal_lock_free_queue_init(msg_size, msg_max)`; `ok` tells whether the allocation succeeds. -/
def osalLockFreeQueueInit (msgSize msgMax : Nat) (ok : Bool) : Option LockFreeQueue :=
  if msgSize = 0 ∨ msgMax = 0 then none else
  if ok = false then none else
  some
    { read := 0
      write := 0
      msgSize := msgSize
      totalSize := u32 (msgSize * msgMax)
      buffer := ⟨fun _ => 0⟩
      bufferSize := u32 (msgSize * msgMax) }

namespace LockFreeQueue

/-- `a % queue->total_size`. -/
def wrap (q : LockFreeQueue) (a : Nat) : Option Nat :=
  if q.totalSize = 0 then none else some (a % q.totalSize)

def isFull (q : LockFreeQueue) : Option Bool := do
  let next ← q.wrap (u32 (q.write + q.msgSize))
  some (decide (next = q.read))

def isEmpty (q : LockFreeQueue) : Bool := decide (q.read = q.write)

/-- The length of the first copy at the offset `pos`. -/
def copyLen (q : LockFreeQueue) (pos : Nat) : Nat :=
  let rest := u32 (2 ^ 32 + q.totalSize - pos)
  if rest < q.msgSize then rest else q.msgSize

/-- `memcpy(&queue->buffer[pos], bytes, n)`, `bytes` being the next `n` bytes of `msg`. -/
def copyIn (q : LockFreeQueue) (pos : Nat) (msg : List UInt8) (n : Nat) : Option LockFreeQueue :=
  if pos + n ≤ q.bufferSize ∧ n ≤ msg.length then
    some { q with buffer := writeBytes q.buffer pos (msg.take n) }
  else none

/-- `memcpy(msg + off, &queue->buffer[pos], n)`. -/
def copyOut (q : LockFreeQueue) (pos : Nat) (msg : List UInt8) (off n : Nat) : Option (List UInt8) :=
  if pos + n ≤ q.bufferSize ∧ off + n ≤ msg.length then
    some (msg.take off ++ readBytes q.buffer pos n ++ msg.drop (off + n))
  else none

def pushCopy₁ (q : LockFreeQueue) (msg : List UInt8) : Option LockFreeQueue :=
  q.copyIn q.write msg (q.copyLen q.write)

/-- The second copy of a push, to the start of the ring. -/
def pushCopy₂ (q : LockFreeQueue) (msg : List UInt8) : Option LockFreeQueue :=
  let copyLen := q.copyLen q.write
  if q.msgSize - copyLen > 0 then q.copyIn 0 (msg.drop copyLen) (q.msgSize - copyLen) else some q

def pushAdvance (q : LockFreeQueue) : Option LockFreeQueue := do
  let write ← q.wrap (u32 (q.write + q.msgSize))
  some { q with write := write }

def popCopy₁ (q : LockFreeQueue) (msg : List UInt8) : Option (List UInt8) :=
  q.copyOut q.read msg 0 (q.copyLen q.read)

/-- The second copy of a pop, from the start of the ring. -/
def popCopy₂ (q : LockFreeQueue) (msg : List UInt8) : Option (List UInt8) :=
  let copyLen := q.copyLen q.read
  if q.msgSize - copyLen > 0 then q.copyOut 0 msg copyLen (q.msgSize - copyLen) else some msg

def popAdvance (q : LockFreeQueue) : Option LockFreeQueue := do
  let read ← q.wrap (u32 (q.read + q.msgSize))
  some { q with read := read }

end LockFreeQueue

def osalLockFreeQueuePush (queue : LockFreeQueue) (msg : Option (List UInt8)) :
    Option (Int × LockFreeQueue) :=
  match msg with
  | none => some (-1, queue)
  | some msg => do
    if (← queue.isFull) then return (-1, queue)
    let queue ← queue.pushCopy₁ msg
    let queue ← queue.pushCopy₂ msg
    let queue ← queue.pushAdvance
    some (0, queue)

/-- `osal_lock_free_queue_pop(queue, msg, msg_size)`, with the caller's buffer as it leaves it. -/
def osalLockFreeQueuePop (queue : LockFreeQueue) (msg : Option (List UInt8)) (_msgSize : Nat) :
    Option (Int × Option (List UInt8) × LockFreeQueue) :=
  match msg with
  | none => some (-1, none, queue)
  | some msg => do
    if queue.isEmpty then return (-1, some msg, queue)
    let msg ← queue.popCopy₁ msg
    let msg ← queue.popCopy₂ msg
    let queue ← queue.popAdvance
    some (0, some msg, queue)

end FwkMlib.Osal
