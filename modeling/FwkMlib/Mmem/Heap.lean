import FwkMlib.Mmem.Allocator

/-!
# The heap the clients see

* `Heap` : the live blocks in the order of the list, the addresses released and not reissued
  (`stale`), and what was last stored in the bytes clients can reach (`view`);
* `Heap.step` : what a call does to it, from the call's arguments, the answer of the underlying
  allocator and, for bytes nobody has specified (fresh memory, a dump), the memory after the call;
* `Call`, `exec`, `Allowed` : one call of the module by a client that keeps to its own bytes;
* `Inv` : the module's state carries the heap.
-/

namespace FwkMlib.Mmem
open FwkMlib.Lib FwkMlib.Mlist

instance (r r' : Nat × Nat) : Decidable (Apart r r') := inferInstanceAs (Decidable (_ ∨ _))

structure Heap where
  blocks : List Blk
  stale : List Nat
  view : Mem

namespace Heap

/-- A block appears, with the given bytes as its data and its magics in place. -/
def place (h : Heap) (b : Blk) (bytes : Nat → UInt8) : Heap where
  blocks := h.blocks ++ [b]
  stale := h.stale.filter fun a => Apart (a, 8) b.region
  view := activeMem ⟨fun x => if b.data ≤ x ∧ x < b.tail then bytes x else h.view x⟩ b

def release (h : Heap) (b : Blk) : Heap where
  blocks := h.blocks.erase b
  stale := h.stale ++ [b.addr]
  view := h.view

def find (h : Heap) (addr : Nat) : Option Blk := h.blocks.find? fun b => b.data = addr

/-- Nobody has touched the magics of `b`. -/
def Intact (h : Heap) (b : Blk) : Prop :=
  readBytes h.view b.addr 8 = bytesLE 8 MMEM_BLOCK_ACTIVE_HEAD_MAGIC ∧
    readBytes h.view b.tail 8 = bytesLE 8 MMEM_BLOCK_ACTIVE_TAIL_MAGIC

instance (h : Heap) (b : Blk) : Decidable (h.Intact b) := inferInstanceAs (Decidable (_ ∧ _))

theorem intact_place (h : Heap) (b : Blk) (bytes : Nat → UInt8) : (h.place b bytes).Intact b :=
  ⟨readBytes_activeMem_head _ b, readBytes_activeMem_tail _ b⟩

def alloc (h : Heap) (size file : Nat) (line : Int) (ans : Answer) (mem' : Mem) : Heap :=
  if size = 0 then h
  else match ans.addr with
    | none => h
    | some a => h.place ⟨a, size, file, line⟩ mem'

def calloc (h : Heap) (counts itemSize file : Nat) (line : Int) (ans : Answer) : Heap :=
  if counts = 0 ∨ itemSize = 0 then h
  else match ans.addr with
    | none => h
    | some a => h.place ⟨a, counts * itemSize % 2 ^ 64, file, line⟩ fun _ => 0

def free (h : Heap) (addr : Nat) : Heap :=
  match h.find addr with
  | none => h
  | some b => if h.Intact b then h.release b else h

/-- The data of a block resized from `b` to `b'` : the common prefix, then unspecified bytes. -/
def resized (h : Heap) (b b' : Blk) (mem' : Mem) (x : Nat) : UInt8 :=
  if x < b'.data + b.size then h.view (b.data + (x - b'.data)) else mem' x

def realloc (h : Heap) (addr size file : Nat) (line : Int) (ans : Answer) (mem' : Mem) : Heap :=
  if addr = NULL then h.alloc size file line ans mem'
  else if size = 0 then h.free addr
  else match h.find addr with
    | none => h
    | some b =>
      if h.Intact b then
        match ans.addr with
        | none => { h with blocks := h.blocks.erase b ++ [b] }
        | some a => (h.release b).place ⟨a, size, file, line⟩ (h.resized b ⟨a, size, file, line⟩ mem')
      else h

def freeAll (h : Heap) : Heap where
  blocks := []
  stale := h.stale ++ h.blocks.map Blk.addr
  view := h.view

def dump (h : Heap) (buf bufSize : Nat) (mem' : Mem) : Heap :=
  if buf = NULL then h
  else { h with view := ⟨fun x => if buf ≤ x ∧ x < buf + bufSize then mem' x else h.view x⟩ }

def write (h : Heap) (x : Nat) (v : UInt8) : Heap := { h with view := writeBytes h.view x [v] }

end Heap

/-! ## Calls -/

/-- A call of the module, with the answers of the underlying allocator, or a store by a client. -/
inductive Call
  | alloc (size file : Nat) (line : Int) (ans : Answer)
  | calloc (counts itemSize file : Nat) (line : Int) (ans : Answer)
  | realloc (addr size file : Nat) (line : Int) (ans : Answer)
  | free (addr : Nat) (f : Mem → Mem)
  | freeAll (f : Nat → Mem → Mem)
  | dump (cmd counts buf bufSize : Nat)
  | write (x : Nat) (v : UInt8)

def exec (s : State) : Call → Option State
  | .alloc size file line ans => (mmemAlloc s size file line ans).map Prod.fst
  | .calloc counts itemSize file line ans => (mmemCalloc s counts itemSize file line ans).map Prod.fst
  | .realloc addr size file line ans => (mmemRealloc s addr size file line ans).map Prod.fst
  | .free addr f => mmemFree s addr f
  | .freeAll f => mmemFreeAll s f
  | .dump cmd counts buf bufSize => (mmemDump s cmd counts buf bufSize).map Prod.fst
  | .write x v => some { s with mem := writeBytes s.mem x [v] }

def Heap.step (h : Heap) (c : Call) (mem' : Mem) : Heap :=
  match c with
  | .alloc size file line ans => h.alloc size file line ans mem'
  | .calloc counts itemSize file line ans => h.calloc counts itemSize file line ans
  | .realloc addr size file line ans => h.realloc addr size file line ans mem'
  | .free addr _ => h.free addr
  | .freeAll _ => h.freeAll
  | .dump _ _ buf bufSize => h.dump buf bufSize mem'
  | .write x v => h.write x v

/-- A request for `n` bytes leaves room for the header and the guard, or is refused. -/
def Fits (n : Nat) (ans : Answer) : Prop := n + 64 < 2 ^ 64 ∨ ans.addr = none

def AllocOk (s : State) (size : Nat) (ans : Answer) : Prop :=
  size ≠ 0 → Fits size ans ∧ ans.Lawful s.list s.regions (totalSize size)

/-- The product may wrap: the request is for what it wraps to. -/
def CallocOk (s : State) (counts itemSize : Nat) (ans : Answer) : Prop :=
  counts ≠ 0 → itemSize ≠ 0 → Fits (counts * itemSize % 2 ^ 64) ans ∧
    ans.Lawful s.list s.regions (totalSize (counts * itemSize % 2 ^ 64)) ∧
    ans.Zeroed (totalSize (counts * itemSize % 2 ^ 64))

def FreeOk (s : State) (h : Heap) (addr : Nat) (f : Mem → Mem) : Prop :=
  addr ≠ NULL → ∃ b ∈ h.blocks, b.data = addr ∧
    Keeps s.list (otherRegions s.regions b.addr) f

def ReallocOk (s : State) (h : Heap) (addr size : Nat) (ans : Answer) : Prop :=
  if addr = NULL then AllocOk s size ans
  else if size = 0 then FreeOk s h addr ans.mem
  else ∃ b ∈ h.blocks, b.data = addr ∧ Fits size ans ∧
    ans.Lawful s.list (otherRegions s.regions b.addr) (totalSize size) ∧
    ans.Copies b.region (totalSize size)

/-- Each block is released with the blocks behind it still outstanding. -/
def FreeAllOk (s : State) (h : Heap) (f : Nat → Mem → Mem) : Prop :=
  ∀ l₁ b l₂, h.blocks = l₁ ++ b :: l₂ → Keeps s.list (l₂.map Blk.region) (f b.addr)

/-- The buffer is the caller's: no part of it holds links or header fields. -/
def DumpOk (s : State) (h : Heap) (buf bufSize : Nat) : Prop :=
  buf ≠ NULL → buf + bufSize ≤ 2 ^ 64 ∧ Disjoint (tableBytes s.list h.blocks) (bytesAt buf bufSize)

/-- What clients and the underlying allocator may do: addresses are `NULL` or those of live blocks,
requests fit or are refused, stores go to the magics and the data of live blocks. -/
def Allowed (s : State) (h : Heap) : Call → Prop
  | .alloc size _ _ ans => AllocOk s size ans
  | .calloc counts itemSize _ _ ans => CallocOk s counts itemSize ans
  | .realloc addr size _ _ ans => ReallocOk s h addr size ans
  | .free addr f => FreeOk s h addr f
  | .freeAll f => FreeAllOk s h f
  | .dump _ _ buf bufSize => DumpOk s h buf bufSize
  | .write x _ => ∃ b ∈ h.blocks, x ∈ clientBytes b

/-- The state carries the heap. -/
structure Inv (s : State) (h : Heap) : Prop where
  tracks : Tracks s h.blocks []
  view : ∀ b ∈ h.blocks, ∀ x ∈ clientBytes b, s.mem x = h.view x
  unlocked : s.locked = false

end FwkMlib.Mmem
