import FwkMlib.Mlist.Link

/-!
# `mmem_debug.c`

The debugging allocator on LP64: a block is a 56-byte header (magic, list node, size, total size,
file, line), the client's data and an eight-byte tail guard, all inside one region of the underlying
allocator. The table counts the blocks and links them.

* `State` : the module's state, with the regions the underlying allocator has handed out (`regions`)
  and the calls made to it (`calls`);
* `Answer` : what the underlying allocator does on one call, an address or a failure and the memory
  it leaves;
* `mmemCalloc`, `mmemAlloc`, `mmemFree`, `mmemRealloc`, `mmemFreeAll`, `mmemDump` : the operations;
  `none` is a crash, a lock taken twice or an address handed to the underlying allocator that is not
  outstanding there.
-/

namespace FwkMlib.Mmem
open FwkMlib.Lib FwkMlib.Mlist

def NULL : Nat := 0

/-! ## Blocks -/

def MMEM_BLOCK_SIZE : Nat := 56

def totalSize (size : Nat) : Nat := (MMEM_BLOCK_SIZE + size + 8) % 2 ^ 64

def getBlock (addr : Nat) : Nat := (2 ^ 64 - MMEM_BLOCK_SIZE + addr) % 2 ^ 64

/-- `&block->list`. -/
def blockNode (block : Nat) : Nat := block + 8

/-- The block whose `list` member is `node`. -/
def nodeBlock (node : Nat) : Nat := node - 8

def blockMagic (m : Mem) (block : Nat) : Nat := read64 m block

def blockSize (m : Mem) (block : Nat) : Nat := read64 m (block + 24)

def blockTotalSize (m : Mem) (block : Nat) : Nat := read64 m (block + 32)

def blockFile (m : Mem) (block : Nat) : Nat := read64 m (block + 40)

def blockLine (m : Mem) (block : Nat) : Nat := read64 m (block + 48)

def blockData (block : Nat) : Nat := block + MMEM_BLOCK_SIZE

def blockTail (m : Mem) (block : Nat) : Nat := (blockData block + blockSize m block) % 2 ^ 64

def blockTailMagic (m : Mem) (block : Nat) : Nat := read64 m (blockTail m block)

def blockUpdate (m : Mem) (block size total file : Nat) (line : Int) : Mem :=
  let m := write64 m (block + 24) size
  let m := write64 m (block + 32) total
  let m := write64 m (block + 40) file
  write64 m (block + 48) (line % 2 ^ 64).toNat

/-- `"mbah    "`. -/
def MMEM_BLOCK_ACTIVE_HEAD_MAGIC : Nat := 0x202020206861626d

/-- `"mbat    "`. -/
def MMEM_BLOCK_ACTIVE_TAIL_MAGIC : Nat := 0x202020207461626d

/-- `"mbfh    "`. -/
def MMEM_BLOCK_FREE_HEAD_MAGIC : Nat := 0x202020206866626d

/-- `"mbft    "`. -/
def MMEM_BLOCK_FREE_TAIL_MAGIC : Nat := 0x202020207466626d

def checkBlockMagicActive (m : Mem) (block : Nat) : Int :=
  if blockMagic m block ≠ MMEM_BLOCK_ACTIVE_HEAD_MAGIC ∨
      blockTailMagic m block ≠ MMEM_BLOCK_ACTIVE_TAIL_MAGIC then -1 else 0

/-- The two stores of `_mmem_set_block_magic_active` and `_mmem_set_block_magic_free`. -/
def setBlockMagic (head tail : Nat) (m : Mem) (block : Nat) : Mem :=
  let m := write64 m block head
  write64 m (blockTail m block) tail

def setBlockMagicActive : Mem → Nat → Mem :=
  setBlockMagic MMEM_BLOCK_ACTIVE_HEAD_MAGIC MMEM_BLOCK_ACTIVE_TAIL_MAGIC

def setBlockMagicFree : Mem → Nat → Mem :=
  setBlockMagic MMEM_BLOCK_FREE_HEAD_MAGIC MMEM_BLOCK_FREE_TAIL_MAGIC

/-! ## The table -/

def add64 (a b : Nat) : Nat := (a + b) % 2 ^ 64

def sub64 (a b : Nat) : Nat := (2 ^ 64 - b + a) % 2 ^ 64

structure Table where
  count : Nat
  totalSize : Nat
  activeSize : Nat
  maxTotalSize : Nat
  maxActiveSize : Nat
  deriving DecidableEq

inductive RealCall
  | malloc (size : Nat)
  | calloc (counts size : Nat)
  | realloc (addr size : Nat)
  | free (addr : Nat)
  deriving DecidableEq

structure State where
  mem : Mem
  /-- `&mmem_block_table.list`. -/
  list : Nat
  table : Table
  /-- The static `table` of `_mmem_block_table_get` has been set. -/
  ready : Bool
  locked : Bool
  regions : List (Nat × Nat)
  calls : List RealCall

def lock (s : State) : Option State := if s.locked then none else some { s with locked := true }

def unlock (s : State) : Option State := if s.locked then some { s with locked := false } else none

def blockTableGet (s : State) : State :=
  if s.ready then s
  else { s with
    ready := true
    table := { s.table with totalSize := 0, activeSize := 0 }
    mem := mlistInit s.mem s.list }

def Table.add (t : Table) (total size : Nat) : Table :=
  let totalSize := add64 t.totalSize total
  let activeSize := add64 t.activeSize size
  { count := add64 t.count 1
    totalSize := totalSize
    activeSize := activeSize
    maxTotalSize := if totalSize > t.maxTotalSize then totalSize else t.maxTotalSize
    maxActiveSize := if activeSize > t.maxActiveSize then activeSize else t.maxActiveSize }

def Table.del (t : Table) (total size : Nat) : Table :=
  { t with
    count := sub64 t.count 1
    totalSize := sub64 t.totalSize total
    activeSize := sub64 t.activeSize size }

def blockAdd (s : State) (block : Nat) : State :=
  let m := mlistAddTail s.mem s.list (blockNode block)
  { s with mem := m, table := s.table.add (blockTotalSize m block) (blockSize m block) }

def blockDel (s : State) (block : Nat) : State :=
  let m := mlistDel s.mem (blockNode block)
  { s with mem := m, table := s.table.del (blockTotalSize m block) (blockSize m block) }

/-! ## The underlying allocator -/

/-- One answer of the underlying allocator: an address, or `none` for `NULL`, and what the call does
to the memory. -/
structure Answer where
  addr : Option Nat
  mem : Mem → Mem

/-- `_real_malloc`, `_real_calloc`. -/
def realAlloc (s : State) (call : RealCall) (size : Nat) (ans : Answer) : State :=
  { s with
    mem := ans.mem s.mem
    calls := s.calls ++ [call]
    regions := match ans.addr with
      | none => s.regions
      | some a => s.regions ++ [(a, size)] }

def otherRegions (regions : List (Nat × Nat)) (addr : Nat) : List (Nat × Nat) :=
  regions.filter fun r => r.1 ≠ addr

def realFree (s : State) (block : Nat) (f : Mem → Mem) : Option State :=
  if block ∈ s.regions.map Prod.fst then
    some { s with
      mem := f s.mem
      calls := s.calls ++ [.free block]
      regions := otherRegions s.regions block }
  else none

def realRealloc (s : State) (block size : Nat) (ans : Answer) : Option State :=
  if block ∈ s.regions.map Prod.fst then
    some { s with
      mem := ans.mem s.mem
      calls := s.calls ++ [.realloc block size]
      regions := match ans.addr with
        | none => s.regions
        | some a => otherRegions s.regions block ++ [(a, size)] }
  else none

/-! ## The operations -/

def mmemCalloc (s : State) (counts itemSize file : Nat) (line : Int) (ans : Answer) :
    Option (State × Nat) := do
  let s ← lock s
  if counts = 0 ∨ itemSize = 0 then
    return (← unlock s, NULL)
  let size := counts * itemSize % 2 ^ 64
  let total := totalSize size
  let s := realAlloc s (.calloc 1 total) total ans
  match ans.addr with
  | none => return (← unlock s, NULL)
  | some block =>
    let m := blockUpdate s.mem block size total file line
    let m := setBlockMagicActive m block
    let s := blockTableGet { s with mem := m }
    let s := { s with mem := mlistInit s.mem (blockNode block) }
    let s := blockAdd s block
    return (← unlock s, blockData block)

def mmemAlloc (s : State) (size file : Nat) (line : Int) (ans : Answer) : Option (State × Nat) := do
  let s ← lock s
  if size = 0 then
    return (← unlock s, NULL)
  let total := totalSize size
  let s := realAlloc s (.malloc total) total ans
  match ans.addr with
  | none => return (← unlock s, NULL)
  | some block =>
    let m := blockUpdate s.mem block size total file line
    let m := setBlockMagicActive m block
    let s := blockTableGet { s with mem := m }
    let s := { s with mem := mlistInit s.mem (blockNode block) }
    let s := blockAdd s block
    return (← unlock s, blockData block)

def mmemFree (s : State) (addr : Nat) (f : Mem → Mem) : Option State := do
  let s ← lock s
  if addr = NULL then
    return ← unlock s
  let block := getBlock addr
  if checkBlockMagicActive s.mem block ≠ 0 then
    return ← unlock s
  let s := blockTableGet { s with mem := setBlockMagicFree s.mem block }
  let s := blockDel s block
  let s ← realFree s block f
  unlock s

def mmemRealloc (s : State) (addr size file : Nat) (line : Int) (ans : Answer) :
    Option (State × Nat) := do
  let s ← lock s
  if addr = NULL then
    let s ← unlock s
    return ← mmemAlloc s size file line ans
  if size = 0 then
    let s ← unlock s
    let s ← mmemFree s addr ans.mem
    return (s, NULL)
  let block := getBlock addr
  if checkBlockMagicActive s.mem block ≠ 0 then
    return (← unlock s, NULL)
  let s := blockTableGet { s with mem := setBlockMagicFree s.mem block }
  let s := blockDel s block
  let total := totalSize size
  let s ← realRealloc s block total ans
  match ans.addr with
  | none =>
    let m := setBlockMagicActive s.mem block
    let m := mlistInit m (blockNode block)
    let s := blockAdd { s with mem := m } block
    return (← unlock s, NULL)
  | some block =>
    let m := blockUpdate s.mem block size total file line
    let m := setBlockMagicActive m block
    let m := mlistInit m (blockNode block)
    let s := blockAdd { s with mem := m } block
    return (← unlock s, blockData block)

/-- The loop of `mmem_free_all`; the check of a block's magics only prints. -/
def freeAllLoop (ans : Nat → Mem → Mem) : Nat → State → Nat → Nat → Option State
  | 0, _, _, _ => none
  | fuel + 1, s, pos, n =>
    if pos = s.list then some s
    else do
      let block := nodeBlock pos
      let s := blockDel { s with mem := setBlockMagicFree s.mem block } block
      let s ← realFree s block (ans block)
      freeAllLoop ans fuel s n (next s.mem n)

def mmemFreeAll (s : State) (ans : Nat → Mem → Mem) : Option State := do
  let s ← lock s
  let s := blockTableGet s
  let pos := next s.mem s.list
  let s ← freeAllLoop ans (s.regions.length + 1) s pos (next s.mem pos)
  unlock s

/-! ## `mmem_dump` -/

def MMEM_DUMP_CMD_COUNTS : Nat := 0x01

def MMEM_DUMP_CMD_MMEM_INFO : Nat := 0x02

def MMEM_DUMP_CMD_MMEM_BLOCK_INFO : Nat := 0x03

def MMEM_DUMP_RET_OK : Int := 0

def MMEM_DUMP_RET_INVALID_CMD : Int := -1

def MMEM_DUMP_RET_EMPTY_BUF : Int := -2

def MMEM_DUMP_RET_BUF_SIZE_TOO_SMALL : Int := -3

def dumpCmdCounts (s : State) (buf bufSize : Nat) : Mem × Int :=
  if buf = NULL then (s.mem, MMEM_DUMP_RET_EMPTY_BUF)
  else if bufSize < 8 then (s.mem, MMEM_DUMP_RET_BUF_SIZE_TOO_SMALL)
  else (write64 s.mem buf s.table.count, MMEM_DUMP_RET_OK)

def dumpCmdMmemInfo (s : State) (buf bufSize : Nat) : Mem × Int :=
  if buf = NULL then (s.mem, MMEM_DUMP_RET_EMPTY_BUF)
  else if bufSize < 40 then (s.mem, MMEM_DUMP_RET_BUF_SIZE_TOO_SMALL)
  else
    let m := write64 s.mem buf s.table.count
    let m := write64 m (buf + 8) s.table.totalSize
    let m := write64 m (buf + 16) s.table.activeSize
    let m := write64 m (buf + 24) s.table.maxTotalSize
    (write64 m (buf + 32) s.table.maxActiveSize, MMEM_DUMP_RET_OK)

/-- `info[index] = ...` for the block: a `mmem_block_info_t` of four words. -/
def writeBlockInfo (m : Mem) (info block : Nat) : Mem :=
  let m := write64 m info (blockSize m block)
  let m := write64 m (info + 8) (blockTotalSize m block)
  let m := write64 m (info + 16) (blockFile m block)
  write64 m (info + 24) (blockLine m block)

/-- The loop of `_mmem_dump_cmd_mmem_block_info`. -/
def dumpBlockLoop (list counts buf : Nat) : Nat → Mem → Nat → Nat → Nat → Option (Mem × Int)
  | 0, _, _, _, _ => none
  | fuel + 1, m, pos, index, size =>
    if pos = list then some (m, index)
    else
      let m := writeBlockInfo m (buf + 32 * index) (nodeBlock pos)
      let index := index + 1
      if index ≥ counts then some (m, index)
      else
        let size := sub64 size 32
        if size < 32 then some (m, index)
        else dumpBlockLoop list counts buf fuel m (next m pos) index size

def dumpCmdMmemBlockInfo (s : State) (counts buf bufSize : Nat) : Option (Mem × Int) :=
  if buf = NULL then some (s.mem, MMEM_DUMP_RET_EMPTY_BUF)
  else if bufSize < 32 then some (s.mem, MMEM_DUMP_RET_BUF_SIZE_TOO_SMALL)
  else if counts = 0 then some (s.mem, 0)
  else dumpBlockLoop s.list counts buf (s.regions.length + 1) s.mem (next s.mem s.list) 0 bufSize

/-- The `switch` of `mmem_dump`. -/
def dumpCmd (s : State) (cmd counts buf bufSize : Nat) : Option (Mem × Int) :=
  if cmd = MMEM_DUMP_CMD_COUNTS then some (dumpCmdCounts s buf bufSize)
  else if cmd = MMEM_DUMP_CMD_MMEM_INFO then some (dumpCmdMmemInfo s buf bufSize)
  else if cmd = MMEM_DUMP_CMD_MMEM_BLOCK_INFO then dumpCmdMmemBlockInfo s counts buf bufSize
  else some (s.mem, MMEM_DUMP_RET_INVALID_CMD)

def mmemDump (s : State) (cmd counts buf bufSize : Nat) : Option (State × Int) := do
  let s ← lock s
  let s := blockTableGet s
  let (m, ret) ← dumpCmd s cmd counts buf bufSize
  return (← unlock { s with mem := m }, ret)

end FwkMlib.Mmem
