import FwkMlib.Lib.ForLoop
import FwkMlib.Mlist.Link
import Mathlib.Algebra.Group.Int.Defs
import Mathlib.Tactic.Common

/-!
# Loops over a list

The four `mlist_for_each` macros of `mlist.h`, with any body. The safe ones read the successor of an
entry before the body runs, and the body may unlink the entry, poison it or free it.

* `ring_visit` : the list after the body ran at an entry;
* `walkSafe_traversed` : a safe loop runs the body at each entry, in order, and leaves the entries kept;
* `mlistForEachSafe_traverses` : the two safe macros, and that they visit what the plain ones do when
  nothing is removed.
-/

namespace FwkMlib.Mlist
open FwkMlib.Lib

/-! ## The macros -/

/-- `M_GET_OBJECT`, with the offset of the member. -/
def mGetObject (member ptr : Nat) : Nat := (((ptr : Int) - member) % 2 ^ 64).toNat

/-- `&((pos)->member)`. -/
def addrOfMember (member pos : Nat) : Nat := (pos + member) % 2 ^ 64

/-- What a loop does: it reads the link `next` of a node, or runs the body at the entry of a node, which
the body unlinks or not. -/
inductive Event
  | link (node : Nat)
  | visit (node : Nat) (dropped : Bool)
  deriving DecidableEq, Repr

/-- The statement under a macro, with variables `σ` of its own, run at the pointer of the loop; `drops`
says when it unlinks the entry. -/
structure Body (σ : Type) where
  act : σ → Mem → Nat → σ × Mem
  drops : σ → Mem → Nat → Bool

/-- A loop between two rounds: the memory, the pointers `ptr` (or `pos`) and `n`, the variables of the
body, and what happened. -/
structure Iter (σ : Type) where
  mem : Mem
  ptr : Nat
  n : Nat
  vars : σ
  log : List Event

variable {σ : Type} {obj node : Nat → Nat} {b : Body σ} {head a : Nat} {l stay todo : List Nat}
  {m m' : Mem} {v : σ} {it : Iter σ}

/-- The body at the pointer of the loop. -/
def Body.run (b : Body σ) (node : Nat → Nat) (it : Iter σ) : Iter σ :=
  let (vars, mem) := b.act it.vars it.mem it.ptr
  { it with
    vars := vars
    mem := mem
    log := it.log ++ [.visit (node it.ptr) (b.drops it.vars it.mem it.ptr)] }

/-- The plain macros; `obj` goes from a node to its entry and `node` back. -/
def walk (obj node : Nat → Nat) (b : Body σ) (head fuel : Nat) (v : σ) (m : Mem) :
    Option (Iter σ) :=
  forLoop (fun it => node it.ptr != head)
    (fun it => { it with
      ptr := obj (next it.mem (node it.ptr))
      log := it.log ++ [.link (node it.ptr)] })
    (b.run node) fuel ⟨m, obj (next m head), 0, v, [.link head]⟩

/-- The safe macros. -/
def walkSafe (obj node : Nat → Nat) (b : Body σ) (head fuel : Nat) (v : σ) (m : Mem) :
    Option (Iter σ) :=
  let ptr := obj (next m head)
  forLoop (fun it => node it.ptr != head)
    (fun it => { it with
      ptr := it.n
      n := obj (next it.mem (node it.n))
      log := it.log ++ [.link (node it.n)] })
    (b.run node) fuel ⟨m, ptr, obj (next m (node ptr)), v, [.link head, .link (node ptr)]⟩

def mlistForEach : Body σ → Nat → Nat → σ → Mem → Option (Iter σ) := walk id id

def mlistForEachSafe : Body σ → Nat → Nat → σ → Mem → Option (Iter σ) := walkSafe id id

def mlistForEachEntry (member : Nat) : Body σ → Nat → Nat → σ → Mem → Option (Iter σ) :=
  walk (mGetObject member) (addrOfMember member)

def mlistForEachEntrySafe (member : Nat) : Body σ → Nat → Nat → σ → Mem → Option (Iter σ) :=
  walkSafe (mGetObject member) (addrOfMember member)

/-- The member of the object that a node lies in is the node. -/
theorem addrOfMember_mGetObject {ptr : Nat} (member : Nat) (h : ptr < 2 ^ 64) :
    addrOfMember member (mGetObject member ptr) = ptr := by
  unfold addrOfMember mGetObject
  omega

/-! ## Bodies -/

/-- The body at the objects of the nodes. -/
def Body.comap (b : Body σ) (obj : Nat → Nat) : Body σ :=
  ⟨fun v m a => b.act v m (obj a), fun v m a => b.drops v m (obj a)⟩

/-- The loop after the body ran at the entry of `a`. -/
def Iter.visit (it : Iter σ) (b : Body σ) (a : Nat) : Iter σ :=
  { it with
    vars := (b.act it.vars it.mem a).1
    mem := (b.act it.vars it.mem a).2
    log := it.log ++ [.visit a (b.drops it.vars it.mem a)] }

theorem Body.run_eq (hptr : it.ptr = obj a) (hnode : node (obj a) = a) :
    b.run node it = it.visit (b.comap obj) a := by
  obtain ⟨mem, ptr, n, vars, log⟩ := it
  obtain rfl : ptr = obj a := hptr
  unfold run
  rw [hnode]
  rfl

/-- The links of the nodes of `l` are as they were. -/
def Untouched (l : List Nat) (m m' : Mem) : Prop := ∀ x ∈ linkBytes l, m' x = m x

/-- At the entry of `a` the body unlinks it or not, and touches no link of the list but so. What was
unlinked is no longer of the list, and its bytes are the body's. -/
inductive Visit (l₁ : List Nat) (a : Nat) (l₂ : List Nat) (m : Mem) : Bool → Mem → Prop
  | keep {m' : Mem} (h : Untouched (l₁ ++ a :: l₂) m m') : Visit l₁ a l₂ m false m'
  | drop {m₁ m' : Mem} (h₁ : Untouched (l₁ ++ a :: l₂) m m₁)
    (h₂ : Untouched (l₁ ++ l₂) (mlistDel m₁ a) m') : Visit l₁ a l₂ m true m'

namespace Body

def after (b : Body σ) : List Nat → σ → Mem → σ × Mem
  | [], v, m => (v, m)
  | a :: l, v, m => b.after l (b.act v m a).1 (b.act v m a).2

def kept (b : Body σ) : List Nat → σ → Mem → List Nat
  | [], _, _ => []
  | a :: l, v, m =>
    let rest := b.kept l (b.act v m a).1 (b.act v m a).2
    if b.drops v m a then rest else a :: rest

/-- At each entry that is still to come the body does what `Visit` says; `stay` are those of the list
that it left so far. -/
def Tame (b : Body σ) (head : Nat) : List Nat → List Nat → σ → Mem → Prop
  | _, [], _, _ => True
  | stay, a :: todo, v, m =>
    Visit (head :: stay) a todo m (b.drops v m a) (b.act v m a).2 ∧
      b.Tame head (if b.drops v m a then stay else stay ++ [a]) todo (b.act v m a).1 (b.act v m a).2

theorem length_kept_le (b : Body σ) : ∀ (l : List Nat) (v : σ) (m : Mem),
    (b.kept l v m).length ≤ l.length := by
  intro l
  induction l with
  | nil => exact fun v m => le_rfl
  | cons a l ih =>
    intro v m
    have hrest := ih (b.act v m a).1 (b.act v m a).2
    rw [kept, List.length_cons]
    split_ifs
    · omega
    · rw [List.length_cons]
      omega

/-- Nothing is unlinked from `a :: l` when it is all kept. -/
theorem of_kept_cons (h : b.kept (a :: l) v m = a :: l) :
    b.drops v m a = false ∧ b.kept l (b.act v m a).1 (b.act v m a).2 = l := by
  rw [kept] at h
  split_ifs at h with hd
  · have hle := b.length_kept_le l (b.act v m a).1 (b.act v m a).2
    rw [h, List.length_cons] at hle
    omega
  · exact ⟨Bool.eq_false_iff.2 hd, List.tail_eq_of_cons_eq h⟩

end Body

/-! ## The list under the body -/

theorem Untouched.refl (l : List Nat) (m : Mem) : Untouched l m m := fun _ _ => rfl

theorem ring_untouched (hu : Untouched l m m') (h : Ring (Linked m) l) : Ring (Linked m') l := by
  apply ring_frame (W := {x | x ∉ linkBytes l}) h
  · intro x hx
    exact hu x (not_not.1 hx)
  · exact Set.disjoint_left.2 fun x hx hnot => hnot hx

/-- **The body at an entry** leaves a list, without the entry if it unlinks it. -/
theorem ring_visit {d : Bool} (hn : Nodes (head :: (stay ++ a :: todo)))
    (h : Ring (Linked m) (head :: (stay ++ a :: todo))) (hv : Visit (head :: stay) a todo m d m') :
    Ring (Linked m') (head :: ((if d then stay else stay ++ [a]) ++ todo)) := by
  cases hv with
  | keep hu =>
    rw [if_neg Bool.false_ne_true, List.append_assoc]
    exact ring_untouched hu h
  | drop hu₁ hu₂ =>
    have hring : Ring (Linked _) (head :: stay ++ a :: todo) := ring_untouched hu₁ h
    rw [if_pos rfl]
    exact ring_untouched hu₂ (ring_mlistDel hn (List.cons_ne_nil _ _) hring).1

/-- The successor of an entry, behind it or at the head. -/
theorem next_ring (h : Ring (Linked m) (head :: (stay ++ a :: todo))) :
    next m a = todo.headD head := by
  cases todo with
  | nil =>
    have hlast : Ring (Linked m) (head :: stay ++ [a]) := h
    exact hlast.rel_last.1
  | cons c todo =>
    have hmid : Ring (Linked m) ((head :: stay) ++ a :: c :: todo) := h
    exact hmid.rel_middle.1

theorem next_head (h : Ring (Linked m) (head :: l)) : next m head = l.headD head := by
  cases l with
  | nil => exact h.rel_self.1
  | cons a l => exact h.rel_head.1

theorem headD_mem (head : Nat) (l : List Nat) : l.headD head ∈ head :: l := by
  cases l with
  | nil => exact List.mem_cons_self
  | cons a l => exact List.mem_cons_of_mem head List.mem_cons_self

/-- An entry that stays keeps its successor. -/
theorem next_visit (h : Ring (Linked m) (head :: (stay ++ a :: todo)))
    (hv : Visit (head :: stay) a todo m false m') : next m' a = next m a := by
  cases hv with
  | keep hu =>
    apply (links_eq h (ring_untouched hu h) _).2
    exact List.mem_cons_of_mem head (List.mem_append_right stay List.mem_cons_self)

/-! ## What happened -/

def visits (log : List Event) : List Nat :=
  log.filterMap fun
    | .visit a _ => some a
    | .link _ => none

/-- The later event `e'` does not read the link of an entry that `e` unlinked. -/
def Spares (e e' : Event) : Prop := ∀ a, e = .visit a true → e' ≠ .link a

theorem visits_append (log log' : List Event) : visits (log ++ log') = visits log ++ visits log' :=
  List.filterMap_append

theorem visits_link (log : List Event) (a : Nat) : visits (log ++ [.link a]) = visits log := by
  rw [visits_append]
  exact List.append_nil _

theorem mem_visits {log : List Event} {d : Bool} (h : .visit a d ∈ log) : a ∈ visits log :=
  List.mem_filterMap.2 ⟨.visit a d, h, rfl⟩

theorem spares_visit {log : List Event} (h : log.Pairwise Spares) (a : Nat) (d : Bool) :
    (log ++ [Event.visit a d]).Pairwise Spares := by
  apply List.pairwise_append.2
  refine ⟨h, List.pairwise_singleton Spares _, ?_⟩
  intro e _ e' he' c _ hlink
  rw [List.mem_singleton.1 he'] at hlink
  cases hlink

theorem spares_link {log : List Event} (h : log.Pairwise Spares) (ha : a ∉ visits log) :
    (log ++ [Event.link a]).Pairwise Spares := by
  apply List.pairwise_append.2
  refine ⟨h, List.pairwise_singleton Spares _, ?_⟩
  intro e he e' he' c hvisit hlink
  rw [List.mem_singleton.1 he'] at hlink
  cases hlink
  exact ha (mem_visits (hvisit ▸ he))

/-! ## Rounds -/

/-- Before a round of a loop over the entries `l`, of which `todo` are still to come. -/
structure Walking (b : Body σ) (head : Nat) (l : List Nat) (v : σ) (m : Mem) (todo : List Nat)
    (it : Iter σ) : Prop where
  state : b.after todo it.vars it.mem = b.after l v m
  visited : visits it.log ++ todo = l
  rest : ∃ stay, stay ++ b.kept todo it.vars it.mem = b.kept l v m ∧
    Nodes (head :: (stay ++ todo)) ∧ Ring (Linked it.mem) (head :: (stay ++ todo)) ∧
    b.Tame head stay todo it.vars it.mem

namespace Walking

theorem start {log : List Event} {ptr n : Nat} (hn : Nodes (head :: l))
    (h : Ring (Linked m) (head :: l)) (ht : b.Tame head [] l v m) (hlog : visits log = []) :
    Walking b head l v m l ⟨m, ptr, n, v, log⟩ := by
  refine ⟨rfl, ?_, [], rfl, hn, h, ht⟩
  rw [hlog, List.nil_append]

/-- The pointers may move on, and links may be read. -/
theorem move (h : Walking b head l v m todo it) (ptr n a : Nat) :
    Walking b head l v m todo { it with ptr := ptr, n := n, log := it.log ++ [.link a] } := by
  refine ⟨h.state, ?_, h.rest⟩
  rw [visits_link]
  exact h.visited

/-- **A round** : the body runs at the next entry. -/
theorem round (h : Walking b head l v m (a :: todo) it) :
    Walking b head l v m todo (it.visit b a) := by
  obtain ⟨stay, hkept, hn, hring, hvisit, htame⟩ := h.rest
  have hring' := ring_visit hn hring hvisit
  refine ⟨h.state, ?_, ?_⟩
  · rw [Iter.visit, visits_append, List.append_assoc]
    exact h.visited
  rw [Body.kept] at hkept
  by_cases hd : b.drops it.vars it.mem a = true
  · rw [if_pos hd] at hkept htame hring'
    refine ⟨stay, hkept, hn.subset ?_, hring', htame⟩
    apply List.cons_subset_cons
    apply List.append_subset.2
    refine ⟨List.subset_append_left _ _, ?_⟩
    exact List.Subset.trans (List.subset_cons_self a todo) (List.subset_append_right stay _)
  · rw [if_neg hd] at hkept htame hring'
    have hassoc : stay ++ [a] ++ todo = stay ++ a :: todo := List.append_assoc stay [a] todo
    refine ⟨stay ++ [a], ?_, ?_, hring', htame⟩
    · rw [← hkept, List.append_assoc]
      rfl
    · rwa [hassoc]

theorem next_eq (h : Walking b head l v m (a :: todo) it) : next it.mem a = todo.headD head := by
  obtain ⟨stay, -, -, hring, -⟩ := h.rest
  exact next_ring hring

theorem ne_head (h : Walking b head l v m (a :: todo) it) (hl : (head :: l).Nodup) : a ≠ head := by
  have ha : a ∈ l := by
    rw [← h.visited]
    exact List.mem_append_right _ List.mem_cons_self
  rintro rfl
  exact (List.nodup_cons.1 hl).1 ha

theorem not_visited (h : Walking b head l v m todo it) (hl : (head :: l).Nodup)
    (ha : a ∈ head :: todo) : a ∉ visits it.log := by
  rw [← h.visited] at hl
  have hnodup := List.nodup_middle.2 hl
  intro hv
  exact (List.nodup_append.1 hnodup).2.2 a hv a ha rfl

end Walking

/-- What a loop does that runs the body at each entry of `l`, in order: `after` and `kept` say what the
body makes of the memory and of the list. -/
structure Traversed (b : Body σ) (head : Nat) (l : List Nat) (v : σ) (m : Mem) (it : Iter σ) :
    Prop where
  visited : visits it.log = l
  state : (it.vars, it.mem) = b.after l v m
  ring : Ring (Linked it.mem) (head :: b.kept l v m)

theorem Walking.traversed (h : Walking b head l v m [] it) : Traversed b head l v m it := by
  obtain ⟨stay, hkept, -, hring, -⟩ := h.rest
  refine ⟨?_, h.state, ?_⟩
  · rw [← h.visited, List.append_nil]
  · rw [← hkept]
    exact hring

/-! ## The loops -/

/-- Before a round of a safe loop: `n` is the successor of the entry that comes next. -/
structure SafeWalking (obj : Nat → Nat) (b : Body σ) (head : Nat) (l : List Nat) (v : σ) (m : Mem)
    (todo : List Nat) (it : Iter σ) : Prop where
  walking : Walking b head l v m todo it
  ptr : it.ptr = obj (todo.headD head)
  n : it.n = obj (next it.mem (todo.headD head))
  spares : it.log.Pairwise Spares

/-- Before a round of a plain loop, when the body keeps every entry. -/
structure PlainWalking (obj : Nat → Nat) (b : Body σ) (head : Nat) (l : List Nat) (v : σ) (m : Mem)
    (todo : List Nat) (it : Iter σ) : Prop where
  walking : Walking b head l v m todo it
  ptr : it.ptr = obj (todo.headD head)
  kept : b.kept todo it.vars it.mem = todo

section loops

variable (hobj : ∀ a ∈ head :: l, node (obj a) = a)

include hobj

theorem Walking.node_headD (h : Walking (b.comap obj) head l v m todo it) :
    node (obj (todo.headD head)) = todo.headD head := by
  apply hobj
  apply List.cons_subset_cons head _ (headD_mem head todo)
  rw [← h.visited]
  exact List.subset_append_right _ _

variable (hn : Nodes (head :: l)) (h : Ring (Linked m) (head :: l))
  (ht : (b.comap obj).Tame head [] l v m)

include h

/-- **A round of a safe loop** : the successor was read before the entry may have gone. -/
theorem SafeWalking.round (hw : SafeWalking obj (b.comap obj) head l v m (a :: todo) it) :
    SafeWalking obj (b.comap obj) head l v m todo
      { it.visit (b.comap obj) a with
        ptr := it.n
        n := obj (next (it.visit (b.comap obj) a).mem (node it.n))
        log := (it.visit (b.comap obj) a).log ++ [.link (node it.n)] } := by
  have hround := hw.walking.round
  have hn : it.n = obj (todo.headD head) := by
    rw [hw.n, ← hw.walking.next_eq]
    rfl
  have hnode : node it.n = todo.headD head := by
    rw [hn]
    exact hround.node_headD hobj
  refine ⟨hround.move _ _ _, hn, congrArg (fun c => obj (next _ c)) hnode, ?_⟩
  apply spares_link (spares_visit hw.spares _ _)
  rw [hnode]
  exact hround.not_visited h.nodup (headD_mem head todo)

omit h in
/-- A round of a plain loop: the successor is read behind the body. -/
theorem PlainWalking.round (hw : PlainWalking obj (b.comap obj) head l v m (a :: todo) it) :
    PlainWalking obj (b.comap obj) head l v m todo
      { it.visit (b.comap obj) a with
        ptr := obj (next (it.visit (b.comap obj) a).mem (node it.ptr))
        log := (it.visit (b.comap obj) a).log ++ [.link (node it.ptr)] } := by
  obtain ⟨hd, hkept⟩ := Body.of_kept_cons hw.kept
  obtain ⟨stay, -, -, hring, hvisit, -⟩ := hw.walking.rest
  rw [hd] at hvisit
  have hnode : node it.ptr = a := by
    rw [hw.ptr]
    exact hw.walking.node_headD hobj
  have hnext : next (it.visit (b.comap obj) a).mem a = todo.headD head :=
    (next_visit hring hvisit).trans (next_ring hring)
  refine ⟨hw.walking.round.move _ _ _, ?_, hkept⟩
  rw [hnode, hnext]

include hn ht

/-- **A safe loop** ends after one round for each entry, whatever the body removes, and reads the links of
no entry that was removed. -/
theorem walkSafe_traversed : ∃ it, (Traversed (b.comap obj) head l v m it ∧
    it.log.Pairwise Spares) ∧ ∀ fuel, l.length < fuel → walkSafe obj node b head fuel v m = some it := by
  have hfirst := hobj _ (headD_mem head l)
  have hloop : ∃ it, SafeWalking obj (b.comap obj) head l v m [] it ∧
      ∀ fuel, l.length < fuel → walkSafe obj node b head fuel v m = some it := by
    apply forLoop_of_inv (SafeWalking obj (b.comap obj) head l v m)
    · intro it hw
      rw [hw.ptr, hw.walking.node_headD hobj]
      exact bne_self_eq_false head
    · intro a todo it hw
      have hnode : node (obj a) = a := hw.walking.node_headD hobj
      have hptr : it.ptr = obj a := hw.ptr
      rw [b.run_eq hptr hnode]
      refine ⟨?_, hw.round hobj h⟩
      rw [hptr, hnode]
      exact bne_iff_ne.2 (hw.walking.ne_head h.nodup)
    · rw [next_head h, hfirst]
      refine ⟨.start hn h ht rfl, rfl, rfl, List.pairwise_pair.2 ?_⟩
      rintro c ⟨⟩
  obtain ⟨it, hit, hfuel⟩ := hloop
  exact ⟨it, ⟨hit.walking.traversed, hit.spares⟩, hfuel⟩

/-- A plain loop does so too, if the body keeps every entry. -/
theorem walk_traversed (hkept : (b.comap obj).kept l v m = l) :
    ∃ it, Traversed (b.comap obj) head l v m it ∧
      ∀ fuel, l.length < fuel → walk obj node b head fuel v m = some it := by
  have hloop : ∃ it, PlainWalking obj (b.comap obj) head l v m [] it ∧
      ∀ fuel, l.length < fuel → walk obj node b head fuel v m = some it := by
    apply forLoop_of_inv (PlainWalking obj (b.comap obj) head l v m)
    · intro it hw
      rw [hw.ptr, hw.walking.node_headD hobj]
      exact bne_self_eq_false head
    · intro a todo it hw
      have hnode : node (obj a) = a := hw.walking.node_headD hobj
      have hptr : it.ptr = obj a := hw.ptr
      rw [b.run_eq hptr hnode]
      refine ⟨?_, hw.round hobj⟩
      rw [hptr, hnode]
      exact bne_iff_ne.2 (hw.walking.ne_head h.nodup)
    · rw [next_head h]
      exact ⟨.start hn h ht rfl, rfl, hkept⟩
  obtain ⟨it, hit, hfuel⟩ := hloop
  exact ⟨it, hit.walking.traversed, hfuel⟩

end loops

/-- The loops `safe` and `plain` with the body `b` : the safe one runs the body at each entry and reads no
link that was removed, and the plain one does the same where nothing is removed. -/
def SafeTraverses (safe plain : Nat → Option (Iter σ)) (b : Body σ) (head : Nat) (l : List Nat)
    (v : σ) (m : Mem) : Prop :=
  ∃ it, (∀ fuel, l.length < fuel → safe fuel = some it) ∧ Traversed b head l v m it ∧
    it.log.Pairwise Spares ∧
    (b.kept l v m = l → ∃ it', (∀ fuel, l.length < fuel → plain fuel = some it') ∧
      visits it'.log = visits it.log ∧ it'.vars = it.vars ∧ it'.mem = it.mem)

theorem Traversed.unique {it' : Iter σ} (h : Traversed b head l v m it)
    (h' : Traversed b head l v m it') :
    visits it'.log = visits it.log ∧ it'.vars = it.vars ∧ it'.mem = it.mem := by
  have hstate := h'.state.trans h.state.symm
  exact ⟨h'.visited.trans h.visited.symm, congrArg Prod.fst hstate, congrArg Prod.snd hstate⟩

theorem safeTraverses (hobj : ∀ a ∈ head :: l, node (obj a) = a) (hn : Nodes (head :: l))
    (h : Ring (Linked m) (head :: l)) (ht : (b.comap obj).Tame head [] l v m) :
    SafeTraverses (fun fuel => walkSafe obj node b head fuel v m)
      (fun fuel => walk obj node b head fuel v m) (b.comap obj) head l v m := by
  obtain ⟨it, ⟨htrav, hspares⟩, hfuel⟩ := walkSafe_traversed hobj hn h ht
  refine ⟨it, hfuel, htrav, hspares, fun hkept => ?_⟩
  obtain ⟨it', htrav', hfuel'⟩ := walk_traversed hobj hn h ht hkept
  exact ⟨it', hfuel', htrav.unique htrav'⟩

/-- **The loops over a list** : whatever a body removes, the safe macros end, run it at each entry in
order, read the links of no removed entry and leave the list of the entries kept; where it removes
nothing, the plain macros do the same. -/
theorem mlistForEachSafe_traverses {b' : Body σ} {v' : σ} (member : Nat) (hn : Nodes (head :: l))
    (h : Ring (Linked m) (head :: l)) (ht : b.Tame head [] l v m)
    (ht' : (b'.comap (mGetObject member)).Tame head [] l v' m) :
    SafeTraverses (fun fuel => mlistForEachSafe b head fuel v m)
        (fun fuel => mlistForEach b head fuel v m) b head l v m ∧
      SafeTraverses (fun fuel => mlistForEachEntrySafe member b' head fuel v' m)
        (fun fuel => mlistForEachEntry member b' head fuel v' m)
        (b'.comap (mGetObject member)) head l v' m := by
  constructor
  · have hid : ∀ a ∈ head :: l, id (id a) = a := fun a _ => rfl
    exact safeTraverses hid hn h ht
  · apply safeTraverses _ hn h ht'
    intro a ha
    exact addrOfMember_mGetObject member (hn.lt a ha)

/-- A body that unlinks every entry and overwrites its links. -/
def wipe (node : Nat → Nat) : Body Unit where
  act _ m p := ((), writeBytes (mlistDel m (node p)) (node p) (List.replicate 16 0xff))
  drops _ _ _ := true

theorem untouched_wipe (hn : Nodes (a :: l)) (ha : a ∉ l) (m : Mem) :
    Untouched l m (writeBytes m a (List.replicate 16 0xff)) := by
  rintro x ⟨c, hc, hx⟩
  apply Frame.writeBytes m a _ x
  rw [mem_bytesAt, List.length_replicate]
  have hsep := hn.sep a List.mem_cons_self c (List.mem_cons_of_mem a hc) (ha <| · ▸ hc)
  omega

theorem tame_wipe : ∀ (todo : List Nat) (m : Mem), (∀ a ∈ todo, node (obj a) = a) →
    Nodes (head :: todo) → (head :: todo).Nodup → ((wipe node).comap obj).Tame head [] todo () m := by
  intro todo
  induction todo with
  | nil => exact fun m _ _ _ => trivial
  | cons a todo ih =>
    intro m hobj hn hnodup
    have hnode := hobj a List.mem_cons_self
    have hmid : (a :: head :: todo).Nodup := by
      have hcat : ([head] ++ a :: todo).Nodup := hnodup
      exact List.nodup_middle.1 hcat
    have hn' : Nodes (a :: head :: todo) := by
      apply hn.subset
      intro x hx
      exact (List.Perm.swap head a todo).mem_iff.1 hx
    constructor
    · apply Visit.drop (Untouched.refl _ m)
      show Untouched (head :: todo) (mlistDel m a) (writeBytes (mlistDel m (node (obj a))) (node (obj a)) _)
      rw [hnode]
      exact untouched_wipe hn' (List.nodup_cons.1 hmid).1 _
    · apply ih
      · exact fun c hc => hobj c (List.mem_cons_of_mem a hc)
      · exact hn'.subset (List.subset_cons_self a _)
      · exact (List.nodup_cons.1 hmid).2

/-- A list of two entries, all removed. -/
theorem mlistForEachSafe_traverses_two : ∃ m it it',
    Ring (Linked m) [4096, 8192, 12288] ∧
    mlistForEachSafe (wipe id) 4096 3 () m = some it ∧ Ring (Linked it.mem) [4096] ∧
    mlistForEachEntrySafe 24 (wipe (addrOfMember 24)) 4096 3 () m = some it' ∧
    Ring (Linked it'.mem) [4096] := by
  have hn₁ : Nodes [8192, 4096] := ⟨by decide, by decide⟩
  have hn₂ : Nodes [12288, 4096, 8192] := ⟨by decide, by decide⟩
  have hn : Nodes [4096, 8192, 12288] := ⟨by decide, by decide⟩
  have h₁ := (ring_mlistAddTail hn₁ (by decide) (ring_mlistInit (by decide) ⟨fun _ => 0⟩)).1
  have h := (ring_mlistAddTail hn₂ (by decide) h₁).1
  have hid : ∀ a ∈ [8192, 12288], id (id a) = a := by decide
  have hobj : ∀ a ∈ [8192, 12288], addrOfMember 24 (mGetObject 24 a) = a := by decide
  obtain ⟨⟨it, hfuel, htrav, -⟩, it', hfuel', htrav', -⟩ :=
    mlistForEachSafe_traverses 24 hn h
      (tame_wipe _ _ hid hn h.nodup) (tame_wipe _ _ hobj hn h.nodup)
  exact ⟨_, it, it', h, hfuel 3 (by decide), htrav.ring, hfuel' 3 (by decide), htrav'.ring⟩

end FwkMlib.Mlist
