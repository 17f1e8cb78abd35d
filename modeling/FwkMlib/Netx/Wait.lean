import FwkMlib.Netx.Poll

/-!
# `netx_wait`

The select-based wait: one walk of the used ring builds the three `fd_set`s, a second one reads them
back and moves the head of the ring. `select` is a parameter. `none` stands for an access outside an
`fd_set`, a `NULL` dereference, or a ring that is not left within one round per item of the pool.

The counters `in_counts`, `out_counts`, `et_counts` and `max_counts` of the source are written and
never read; they are left out.
-/

namespace FwkMlib.Netx

abbrev FdSet := Int → Bool

/-- The bit of `fd` lies inside the bitmap. -/
def InFdSet (fd : Int) : Prop := 0 ≤ fd ∧ fd < FD_SETSIZE

instance (fd : Int) : Decidable (InFdSet fd) := inferInstanceAs (Decidable (_ ∧ _))

def FD_SET (fd : Int) (fs : FdSet) : Option FdSet :=
  if InFdSet fd then some (Function.update fs fd true) else none

def FD_ISSET (fd : Int) (fs : FdSet) : Option Bool :=
  if InFdSet fd then some (fs fd) else none

/-- `fs_in`, `fs_out` and `fs_et`. -/
structure FdSets where
  fsIn : FdSet
  fsOut : FdSet
  fsEt : FdSet

def FdSets.zero : FdSets := ⟨fun _ => false, fun _ => false, fun _ => false⟩

/-- The call `select(nfds, in, out, et, {tv_sec, tv_usec})`: its result and the sets it leaves. -/
abbrev Select := Int → FdSets → Nat → Nat → Int × FdSets

/-- One block of the first loop: the item's interest in the event `bit`. -/
def watch (bit : Nat) (item : NetxItem) (fs : FdSet) (maxSock : Int) : Option (FdSet × Int) :=
  if item.event.events &&& bit ≠ 0 then do
    let fs ← FD_SET item.fd fs
    some (fs, if maxSock < item.fd then item.fd else maxSock)
  else some (fs, maxSock)

def watchItem (item : NetxItem) (fs : FdSets × Int) : Option (FdSets × Int) := do
  let (fsIn, maxSock) ← watch netxEventIn item fs.1.fsIn fs.2
  let (fsOut, maxSock) ← watch netxEventOut item fs.1.fsOut maxSock
  let (fsEt, maxSock) ← watch netxEventEt item fs.1.fsEt maxSock
  some (⟨fsIn, fsOut, fsEt⟩, maxSock)

/-- One block of the second loop: `bit` when the item watches it and it is ready. -/
def test (bit : Nat) (item : NetxItem) (fs : FdSet) : Option Nat :=
  if item.event.events &&& bit ≠ 0 then do
    let ready ← FD_ISSET item.fd fs
    some (if ready then bit else 0)
  else some 0

def checkEvent (item : NetxItem) (fs : FdSets) : Option Nat := do
  let evIn ← test netxEventIn item fs.fsIn
  let evOut ← test netxEventOut item fs.fsOut
  let evEt ← test netxEventEt item fs.fsEt
  some (evIn ||| evOut ||| evEt)

/-- The three ways out of the second loop. -/
inductive WaitExit where
  | full
  | innerError
  | done
  deriving DecidableEq, Repr

namespace NetxPoll

/-- The first loop, entered at `item`. -/
def setSets (p : NetxPoll) : Nat → Nat → FdSets × Int → Option (FdSets × Int)
  | 0, _, _ => none
  | fuel + 1, item, fs => do
    let fs ← watchItem (p.items item) fs
    if (p.items item).next = p.usedList then some fs
    else do
      let item ← (p.items item).next
      setSets p fuel item fs

/-- The second loop, entered at `item` with the entries `out` of `events` filled. Each entry goes
with the fd it is written for. -/
def checkEvents (p : NetxPoll) (fs : FdSets) (maxEventsCounts : Nat) :
    Nat → Nat → List (Int × NetxEvent) → Option (List (Int × NetxEvent) × WaitExit)
  | 0, _, _ => none
  | fuel + 1, item, out =>
    match (p.items item).next with
    | none => some (out, .innerError)
    | some itemNext => do
      let event ← checkEvent (p.items item) fs
      let out := if event ≠ 0 then
          out ++ [((p.items item).fd, ⟨event, (p.items item).event.data⟩)]
        else out
      if event ≠ 0 ∧ out.length = maxEventsCounts then some (out, .full)
      else if some itemNext = p.usedList then some (out, .done)
      else checkEvents p fs maxEventsCounts fuel itemNext out

/-- `netx_wait` on a poll object with registrations: the return value, the entries written and the
poll object left behind. -/
def wait (p : NetxPoll) (maxEventsCounts timeout : Nat) (select : Select) :
    Option (Int × List (Int × NetxEvent) × NetxPoll) := do
  let head ← p.usedList
  let (fs, maxSock) ← p.setSets p.maxCounts head (FdSets.zero, 0)
  if maxSock = 0 then some (0, [], p) else
  let (ret, fs) := select (maxSock + 1) fs (timeout / 1000) (1000 * (timeout % 1000))
  if ret < 0 then some (-2, [], p) else
  if ret = 0 then some (0, [], p) else do
  let (out, exit) ← p.checkEvents fs maxEventsCounts p.maxCounts head []
  match exit with
  | .full | .innerError => some (out.length, out, p)
  | .done => some (out.length, out, { p with usedList := (p.items head).next })

end NetxPoll

/-- `netx_wait`; `events` tells whether the output array is given. -/
def netxWait (polls : NetxPolls) (poll : Int) (events : Bool) (maxEventsCounts timeout : Nat)
    (select : Select) : Option (Int × List (Int × NetxEvent) × NetxPolls) :=
  match polls.lookup poll with
  | none => some (-1, [], polls)
  | some pollObj =>
    if events = false ∨ maxEventsCounts = 0 then some (-1, [], polls) else
    if pollObj.counts = 0 then some (0, [], polls) else do
    let (ret, out, pollObj) ← pollObj.wait maxEventsCounts timeout select
    some (ret, out, polls.setSlot (poll.toNat - 1) (some pollObj))

end FwkMlib.Netx
