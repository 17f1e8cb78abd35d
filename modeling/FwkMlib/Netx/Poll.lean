import Mathlib.Data.List.Basic
import Mathlib.Logic.Function.Basic

/-!
# The select-based poll object

The data of `netx.c` when `_epoll` is not defined: the pool of items shared by three linked
structures (hash chains, used ring, free list), the poll object, and the table of poll handles, with
`netx_create` and `netx_destroy`.

An item is named by its index in the pool behind the hash table; a `struct netx_item *` is
`Option Nat`, `none` being `NULL`. The lock macros are empty (`mlock_disable`).
-/

namespace FwkMlib.Netx

def FD_SETSIZE : Nat := 1024

def netxEventIn : Nat := 0x001
def netxEventOut : Nat := 0x002
def netxEventEt : Nat := 0x004

def netxCtlAdd : Nat := 1
def netxCtlDel : Nat := 2
def netxCtlMod : Nat := 3

/-- `struct netx_event` : the interest mask and the client's 64-bit `data` union. -/
structure NetxEvent where
  events : Nat
  data : Nat
  deriving DecidableEq, Repr

structure NetxItem where
  hashNext : Option Nat
  next : Option Nat
  prev : Option Nat
  fd : Int
  event : NetxEvent
  deriving DecidableEq, Repr

/-- An item as `memset` leaves it. -/
def NetxItem.zero : NetxItem := ⟨none, none, none, 0, ⟨0, 0⟩⟩

/-- `netx__pool_magic` : the bytes `"ntxp    "` read as a `long`. -/
def netxPoolMagic : Nat := 0x202020207078746e

/-- `struct netx_poll` with the pool of items behind it. -/
structure NetxPoll where
  magic : Nat
  maxCounts : Nat
  counts : Nat
  hashSize : Nat
  freeList : Option Nat
  usedList : Option Nat
  hashTable : Nat → Option Nat
  items : Nat → NetxItem

namespace NetxPoll

def modifyItem (p : NetxPoll) (i : Nat) (f : NetxItem → NetxItem) : NetxPoll :=
  { p with items := Function.update p.items i (f (p.items i)) }

theorem items_modifyItem (p : NetxPoll) (i j : Nat) (f : NetxItem → NetxItem) :
    (p.modifyItem i f).items j = if j = i then f (p.items i) else p.items j := by
  simp [modifyItem, Function.update_apply]

@[simp] theorem magic_modifyItem (p : NetxPoll) (i : Nat) (f : NetxItem → NetxItem) :
    (p.modifyItem i f).magic = p.magic := rfl

@[simp] theorem maxCounts_modifyItem (p : NetxPoll) (i : Nat) (f : NetxItem → NetxItem) :
    (p.modifyItem i f).maxCounts = p.maxCounts := rfl

@[simp] theorem counts_modifyItem (p : NetxPoll) (i : Nat) (f : NetxItem → NetxItem) :
    (p.modifyItem i f).counts = p.counts := rfl

@[simp] theorem hashSize_modifyItem (p : NetxPoll) (i : Nat) (f : NetxItem → NetxItem) :
    (p.modifyItem i f).hashSize = p.hashSize := rfl

@[simp] theorem freeList_modifyItem (p : NetxPoll) (i : Nat) (f : NetxItem → NetxItem) :
    (p.modifyItem i f).freeList = p.freeList := rfl

@[simp] theorem usedList_modifyItem (p : NetxPoll) (i : Nat) (f : NetxItem → NetxItem) :
    (p.modifyItem i f).usedList = p.usedList := rfl

@[simp] theorem hashTable_modifyItem (p : NetxPoll) (i : Nat) (f : NetxItem → NetxItem) :
    (p.modifyItem i f).hashTable = p.hashTable := rfl

end NetxPoll

/-- `netx__poll_hash_size(max_counts)`. -/
def netxPollHashSize (maxCounts : Nat) : Nat := (maxCounts >>> 2) <<< 2 + 3

theorem netxPollHashSize_pos (maxCounts : Nat) : 0 < netxPollHashSize maxCounts :=
  Nat.succ_pos _

/-- The initialisation of a poll object after `malloc` and `memset`: every item of the pool is
chained to the one behind it, then the last link is cut. -/
def initPoll (maxCounts : Nat) : NetxPoll :=
  let chained := (List.range maxCounts).foldl
    (fun items i => Function.update items i { items i with hashNext := some (i + 1) })
    (fun _ => NetxItem.zero)
  { magic := netxPoolMagic
    maxCounts := maxCounts
    counts := 0
    hashSize := netxPollHashSize maxCounts
    freeList := some 0
    usedList := none
    hashTable := fun _ => none
    items := Function.update chained (maxCounts - 1)
      { chained (maxCounts - 1) with hashNext := none } }

/-! ## The table of poll handles -/

/-- `netx__polls` : `list` is `NULL` or an array of `maxCounts` slots. -/
structure NetxPolls where
  counts : Nat
  maxCounts : Nat
  list : Option (List (Option NetxPoll))

/-- The static initialiser `{0}`. -/
def NetxPolls.init : NetxPolls := ⟨0, 0, none⟩

/-- `netx__polls.list[i]`. -/
def NetxPolls.slot (polls : NetxPolls) (i : Nat) : Option NetxPoll :=
  ((polls.list.getD [])[i]?).join

/-- `netx__polls.list[i] = poll_obj`. -/
def NetxPolls.setSlot (polls : NetxPolls) (i : Nat) (pollObj : Option NetxPoll) : NetxPolls :=
  { polls with list := polls.list.map (·.set i pollObj) }

/-- The check of a handle shared by `netx_destroy`, `netx_ctl` and `netx_wait`. -/
def NetxPolls.lookup (polls : NetxPolls) (poll : Int) : Option NetxPoll :=
  if 0 < poll ∧ poll.toNat ≤ polls.maxCounts then polls.slot (poll.toNat - 1) else none

/-- The table after its array was reallocated for 16 more slots. -/
def NetxPolls.grow (polls : NetxPolls) : NetxPolls :=
  { polls with
    list := some (polls.list.getD [] ++ List.replicate 16 none)
    maxCounts := polls.maxCounts + 16 }

/-- `netx_create`. `listOk` and `pollOk` tell whether the (re)allocation of the table and the
allocation of the poll object succeed. -/
def netxCreate (polls : NetxPolls) (maxCounts : Nat) (listOk pollOk : Bool) : Int × NetxPolls :=
  if maxCounts = 0 then (-1, polls) else
  let maxCounts := if maxCounts > FD_SETSIZE then FD_SETSIZE else maxCounts
  if polls.counts ≥ polls.maxCounts ∧ listOk = false then (-3, polls) else
  let polls := if polls.counts ≥ polls.maxCounts then polls.grow else polls
  match (List.range polls.maxCounts).find? (fun i => (polls.slot i).isNone) with
  | none => (-5, polls)
  | some i =>
    if pollOk = false then (-4, polls.setSlot i none) else
    (i + 1, { polls.setSlot i (some (initPoll maxCounts)) with counts := polls.counts + 1 })

def netxDestroy (polls : NetxPolls) (poll : Int) : Int × NetxPolls :=
  match polls.lookup poll with
  | none => (-1, polls)
  | some pollObj =>
    if netxPoolMagic ≠ pollObj.magic ∨ pollObj.maxCounts < pollObj.counts then (-2, polls) else
    let polls := { polls.setSlot (poll.toNat - 1) none with counts := polls.counts - 1 }
    if polls.counts = 0 then (0, { polls with list := none, counts := 0, maxCounts := 0 })
    else (0, polls)

end FwkMlib.Netx
