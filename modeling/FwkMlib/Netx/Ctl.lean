import FwkMlib.Netx.Poll

/-!
# `netx_ctl`

The add, modify and delete operations on a poll object, statement by statement. `none` stands for a
run the C code does not survive (a `NULL` dereference) or never leaves (the search loop has one
round of fuel per item of the pool and one for the end of the chain).
-/

namespace FwkMlib.Netx

/-- What `item_save_pt` can point to: a bucket of the hash table or an item's `hash_next`. -/
inductive ItemPt where
  | bucket (b : Nat)
  | hashNext (i : Nat)
  deriving DecidableEq, Repr

namespace NetxPoll

/-- `*item_save_pt`. -/
def load (p : NetxPoll) : ItemPt → Option Nat
  | .bucket b => p.hashTable b
  | .hashNext i => (p.items i).hashNext

/-- `*item_save_pt = v`. -/
def store (p : NetxPoll) (pt : ItemPt) (v : Option Nat) : NetxPoll :=
  match pt with
  | .bucket b => { p with hashTable := Function.update p.hashTable b v }
  | .hashNext i => p.modifyItem i fun it => { it with hashNext := v }

def bucketOf (p : NetxPoll) (fd : Int) : Nat := fd.toNat % p.hashSize

/-- The search loop: stops at the null link or at the link to the item of `fd`. -/
def searchItem (p : NetxPoll) (fd : Int) : Nat → ItemPt → Option (ItemPt × Option Nat)
  | 0, _ => none
  | fuel + 1, pt =>
    match p.load pt with
    | none => some (pt, none)
    | some item =>
      if fd ≠ (p.items item).fd then searchItem p fd fuel (.hashNext item)
      else some (pt, some item)

def ctlMod (p : NetxPoll) (item : Nat) (event : NetxEvent) : NetxPoll :=
  p.modifyItem item fun it => { it with event := event }

/-- `netx_ctl_del` : "delete from used list". -/
def unlinkUsed (p : NetxPoll) (item : Nat) : Option NetxPoll := do
  let p := { p with
    usedList := if some item = p.usedList then
        if some item = (p.items item).prev then none else (p.items item).next
      else p.usedList }
  let prev ← (p.items item).prev
  let p := p.modifyItem prev fun it => { it with next := (p.items item).next }
  let next ← (p.items item).next
  let p := p.modifyItem next fun it => { it with prev := (p.items item).prev }
  let p := p.modifyItem item fun it => { it with next := none }
  some (p.modifyItem item fun it => { it with prev := none })

/-- `netx_ctl_del` : "add to free list". -/
def pushFree (p : NetxPoll) (item : Nat) : NetxPoll :=
  let p := p.modifyItem item fun it => { it with hashNext := p.freeList }
  { p with freeList := some item }

def ctlDel (p : NetxPoll) (savePt : ItemPt) (item : Nat) : Option NetxPoll := do
  let p := p.modifyItem item fun it => { it with event := { it.event with events := 0 } }
  let p := p.modifyItem item fun it => { it with fd := 0 }
  let p ← p.unlinkUsed item
  let p := p.store savePt (p.items item).hashNext
  let p := p.pushFree item
  some { p with counts := p.counts - 1 }

/-- `netx_ctl_add` : "add to from used list". -/
def linkUsed (p : NetxPoll) (item : Nat) : Option NetxPoll :=
  match p.usedList with
  | none =>
    let p := p.modifyItem item fun it => { it with next := some item }
    let p := p.modifyItem item fun it => { it with prev := some item }
    some { p with usedList := some item }
  | some used => do
    let p := p.modifyItem item fun it => { it with next := some used }
    let p := p.modifyItem item fun it => { it with prev := (p.items used).prev }
    let last ← (p.items used).prev
    let p := p.modifyItem last fun it => { it with next := some item }
    some (p.modifyItem used fun it => { it with prev := some item })

def ctlAdd (p : NetxPoll) (savePt : ItemPt) (item : Nat) (fd : Int) (event : NetxEvent) :
    Option NetxPoll := do
  let p := { p with freeList := (p.items item).hashNext }
  let p := p.modifyItem item fun it => { it with hashNext := p.load savePt }
  let p := p.store savePt (some item)
  let p ← p.linkUsed item
  let p := p.modifyItem item fun it => { it with event := event }
  let p := p.modifyItem item fun it => { it with fd := fd }
  some { p with counts := p.counts + 1 }

/-- `netx_ctl` behind the parameter check: the search and the `switch`. -/
def ctl (p : NetxPoll) (operation : Nat) (fd : Int) (event : Option NetxEvent) :
    Option (Int × NetxPoll) := do
  let (savePt, item) ← p.searchItem fd (p.maxCounts + 1) (.bucket (p.bucketOf fd))
  if operation = netxCtlMod then
    match item with
    | none => some (-2, p)
    | some i => do
      let event ← event
      some (0, p.ctlMod i event)
  else if operation = netxCtlDel then
    match item with
    | none => some (-3, p)
    | some i => do
      let p ← p.ctlDel savePt i
      some (0, p)
  else if operation = netxCtlAdd then
    match item with
    | some _ => some (-4, p)
    | none =>
      match p.freeList with
      | none => some (-5, p)
      | some i => do
        let event ← event
        let p ← p.ctlAdd savePt i fd event
        some (0, p)
  else some (-1, p)

end NetxPoll

def netxCtl (polls : NetxPolls) (poll : Int) (operation : Nat) (fd : Int)
    (event : Option NetxEvent) : Option (Int × NetxPolls) :=
  match polls.lookup poll with
  | none => some (-1, polls)
  | some pollObj =>
    if fd < 0 ∨ (netxCtlDel ≠ operation ∧ event = none) then some (-1, polls) else do
      let (ret, pollObj) ← pollObj.ctl operation fd event
      some (ret, polls.setSlot (poll.toNat - 1) (some pollObj))

end FwkMlib.Netx
