import FwkMlib.Mlist.Link

/-!
# The lists of a heap

What the intrusive lists of a heap stand for: a sequence of members for each list head, no node in
two of them.

* `Lists` : the abstract sequences; `Lists.step` : the effect of an operation on them;
* `Refines m L` : the links in `m` are the rings of `L`; `Refines.step` : each operation keeps this;
* `Shown`, `Does` : what a list shows to its readers, and what an operation changes;
* `Run.lists` : both hold in every state of every run.
-/

namespace FwkMlib.Mlist
open FwkMlib.Lib

/-! ## Abstract lists -/

/-- The heads and members of the lists. -/
def nodesOf (seq : Nat → Option (List Nat)) : Set Nat :=
  {a | ∃ h xs, seq h = some xs ∧ a ∈ h :: xs}

/-- `seq h` are the members of the list with head `h`, if there is one. -/
structure Lists where
  seq : Nat → Option (List Nat)
  nodup : ∀ h xs, seq h = some xs → (h :: xs).Nodup
  own : ∀ h xs h' xs' a, seq h = some xs → seq h' = some xs' → a ∈ h :: xs → a ∈ h' :: xs' → h = h'
  apart : ∀ a ∈ nodesOf seq, ∀ b ∈ nodesOf seq, a ≠ b → a + 16 ≤ b ∨ b + 16 ≤ a
  lt : ∀ a ∈ nodesOf seq, a < 2 ^ 64

def Lists.none : Lists where
  seq _ := .none
  nodup h xs hs := absurd hs (by simp)
  own h xs h' xs' a hs := absurd hs (by simp)
  apart a ha := by obtain ⟨h, xs, hs, -⟩ := ha; exact absurd hs (by simp)
  lt a ha := by obtain ⟨h, xs, hs, -⟩ := ha; exact absurd hs (by simp)

/-- `node` is in no list, its own empty one apart, and overlaps no node of the others. -/
structure Lists.Loose (L : Lists) (node : Nat) : Prop where
  lt : node < 2 ^ 64
  alone : ∀ xs, L.seq node = some xs → xs = []
  apart : ∀ h xs, L.seq h = some xs → h ≠ node → ∀ a ∈ h :: xs, a + 16 ≤ node ∨ node + 16 ≤ a

inductive Op where
  | init (node : Nat)
  | add (head node : Nat)
  | addTail (head node : Nat)
  | del (node : Nat)
  | deinit (node : Nat)

namespace Op

def exec (m : Mem) : Op → Mem
  | init node => mlistInit m node
  | add head node => mlistAdd m head node
  | addTail head node => mlistAddTail m head node
  | del node => mlistDel m node
  | deinit node => mlistDeinit m node

/-- The node it links, unlinks or initialises. -/
def node : Op → Nat
  | init n | add _ n | addTail _ n | del n | deinit n => n

/-- The head of the list it makes or extends. -/
def owner : Op → Nat
  | add head _ | addTail head _ => head
  | init n | del n | deinit n => n

/-- The sequences after the operation. -/
def apply (seq : Nat → Option (List Nat)) : Op → Nat → Option (List Nat)
  | init node, h => if h = node then some [] else seq h
  | add head node, h =>
    if h = node then none else if h = head then (seq h).map (node :: ·) else seq h
  | addTail head node, h =>
    if h = node then none else if h = head then (seq h).map (· ++ [node]) else seq h
  | del node, h | deinit node, h => (seq h).map (·.erase node)

/-- The operation works on the list with head `h`. -/
def On (seq : Nat → Option (List Nat)) (h : Nat) : Op → Prop
  | init node => h = node
  | add head node | addTail head node => h = head ∨ h = node
  | del node | deinit node => ∃ xs, seq h = some xs ∧ node ∈ xs

end Op

namespace Lists

variable {L : Lists} {op : Op} {h h' node head a : Nat} {xs xs' : List Nat}

/-- `mlist_init` takes a fresh node, the insertions a list and a node in no list, the deletions a
linked member. -/
def Allowed (L : Lists) : Op → Prop
  | .init node => L.Loose node
  | .add head node | .addTail head node => (∃ xs, L.seq head = some xs) ∧ head ≠ node ∧ L.Loose node
  | .del node | .deinit node => ∃ h xs, L.seq h = some xs ∧ node ∈ xs

theorem Loose.not_mem (hl : L.Loose node) (hs : L.seq h = some xs) (hne : h ≠ node) :
    node ∉ h :: xs := fun hm => by
  have := hl.apart h xs hs hne node hm
  omega

theorem not_loose (hs : L.seq h = some xs) (hm : node ∈ xs) : ¬ L.Loose node := by
  intro hl
  have hne : h ≠ node := fun he => (List.nodup_cons.1 (L.nodup h xs hs)).1 (he ▸ hm)
  exact hl.not_mem hs hne (List.mem_cons_of_mem h hm)

/-- What a list of the result was before, and what the operation did to it. -/
inductive Becomes (L : Lists) (h : Nat) : Op → List Nat → Prop
  | kept {op : Op} {xs : List Nat} (hs : L.seq h = some xs) (hoff : ¬ op.On L.seq h) :
    Becomes L h op xs
  | init (hl : L.Loose h) : Becomes L h (.init h) []
  | add {node : Nat} {xs : List Nat} (hs : L.seq h = some xs) (hne : h ≠ node)
      (hl : L.Loose node) : Becomes L h (.add h node) (node :: xs)
  | addTail {node : Nat} {xs : List Nat} (hs : L.seq h = some xs) (hne : h ≠ node)
      (hl : L.Loose node) : Becomes L h (.addTail h node) (xs ++ [node])
  | del {node : Nat} {l₁ l₂ : List Nat} (hs : L.seq h = some (l₁ ++ node :: l₂)) :
    Becomes L h (.del node) (l₁ ++ l₂)
  | deinit {node : Nat} {l₁ l₂ : List Nat} (hs : L.seq h = some (l₁ ++ node :: l₂)) :
    Becomes L h (.deinit node) (l₁ ++ l₂)

/-- Erasing from the list of the node, or from a list without it. -/
theorem erase_cases (hs : (L.seq h).map (·.erase node) = some xs') :
    (∃ l₁ l₂, L.seq h = some (l₁ ++ node :: l₂) ∧ xs' = l₁ ++ l₂) ∨
      L.seq h = some xs' ∧ ¬ ∃ xs, L.seq h = some xs ∧ node ∈ xs := by
  obtain ⟨xs, hx, rfl⟩ := Option.map_eq_some_iff.1 hs
  by_cases hm : node ∈ xs
  · obtain ⟨l₁, l₂, hnot, rfl, he⟩ := List.exists_erase_eq hm
    exact .inl ⟨l₁, l₂, hx, he⟩
  · right
    rw [List.erase_of_not_mem hm]
    refine ⟨hx, fun ⟨ys, hy, hmem⟩ => hm ?_⟩
    rw [hx] at hy
    exact Option.some.inj hy ▸ hmem

theorem becomes (ok : L.Allowed op) (hs : op.apply L.seq h = some xs') : L.Becomes h op xs' := by
  cases op with
  | init node =>
    simp only [Op.apply] at hs
    split_ifs at hs with he
    · subst he
      obtain rfl := Option.some.inj hs
      exact .init ok
    · exact .kept hs he
  | add head node =>
    simp only [Op.apply] at hs
    split_ifs at hs with hn he
    · subst he
      obtain ⟨xs, hx, rfl⟩ := Option.map_eq_some_iff.1 hs
      exact .add hx hn ok.2.2
    · exact .kept hs fun hc => hc.elim he hn
  | addTail head node =>
    simp only [Op.apply] at hs
    split_ifs at hs with hn he
    · subst he
      obtain ⟨xs, hx, rfl⟩ := Option.map_eq_some_iff.1 hs
      exact .addTail hx hn ok.2.2
    · exact .kept hs fun hc => hc.elim he hn
  | del node =>
    rcases erase_cases hs with ⟨l₁, l₂, hx, rfl⟩ | ⟨hx, hoff⟩
    · exact .del hx
    · exact .kept hx hoff
  | deinit node =>
    rcases erase_cases hs with ⟨l₁, l₂, hx, rfl⟩ | ⟨hx, hoff⟩
    · exact .deinit hx
    · exact .kept hx hoff

theorem Becomes.nodup (hb : L.Becomes h op xs') : (h :: xs').Nodup := by
  cases hb with
  | kept hs => exact L.nodup h xs' hs
  | init hl => exact List.nodup_singleton h
  | add hs hne hl =>
    have hnot := hl.not_mem hs hne
    have hperm := (L.nodup h _ hs).cons hnot
    exact (List.Perm.swap _ _ _).nodup_iff.1 hperm
  | @addTail node xs hs hne hl =>
    have hcons : ([node] ++ h :: xs).Nodup := (L.nodup h xs hs).cons (hl.not_mem hs hne)
    exact List.nodup_append_comm.1 hcons
  | del hs | deinit hs =>
    exact (L.nodup h _ hs).sublist (((List.sublist_cons_self _ _).append_left _).cons_cons h)

/-- A node of the result is a node from before in the same list, or the loose one. -/
theorem Becomes.mem (hb : L.Becomes h op xs') (ok : L.Allowed op) (ha : a ∈ h :: xs') :
    (a = op.node ∧ h = op.owner ∧ L.Loose a) ∨
      ∃ xs, L.seq h = some xs ∧ a ∈ h :: xs ∧ (L.Loose op.node → h ≠ op.node) := by
  cases hb with
  | kept hs hoff =>
    refine .inr ⟨xs', hs, ha, fun hl => ?_⟩
    cases op with
    | init node => exact hoff
    | add head node | addTail head node => exact fun he => hoff (.inr he)
    | del node | deinit node =>
      obtain ⟨h', xs, hx, hm⟩ := ok
      exact absurd hl (not_loose hx hm)
  | init hl =>
    obtain rfl : a = h := by simpa using ha
    exact .inl ⟨rfl, rfl, hl⟩
  | add hs hne hl =>
    simp only [List.mem_cons] at ha
    rcases ha with rfl | rfl | ha
    · exact .inr ⟨_, hs, List.mem_cons_self, fun _ => hne⟩
    · exact .inl ⟨rfl, rfl, hl⟩
    · exact .inr ⟨_, hs, List.mem_cons_of_mem h ha, fun _ => hne⟩
  | addTail hs hne hl =>
    simp only [List.mem_cons, List.mem_append, List.mem_nil_iff, or_false] at ha
    rcases ha with rfl | ha | rfl
    · exact .inr ⟨_, hs, List.mem_cons_self, fun _ => hne⟩
    · exact .inr ⟨_, hs, List.mem_cons_of_mem h ha, fun _ => hne⟩
    · exact .inl ⟨rfl, rfl, hl⟩
  | @del node l₁ l₂ hs | @deinit node l₁ l₂ hs =>
    have hmem : node ∈ l₁ ++ node :: l₂ := List.mem_append_right l₁ List.mem_cons_self
    refine .inr ⟨_, hs, ?_, fun hl => absurd hl (not_loose hs hmem)⟩
    exact (((List.sublist_cons_self _ _).append_left _).cons_cons h).subset ha

/-- A node of the result is a node from before or the loose one. -/
theorem mem_nodesOf_apply (ok : L.Allowed op) (ha : a ∈ nodesOf (op.apply L.seq)) :
    (a = op.node ∧ L.Loose a) ∨
      ∃ h xs, L.seq h = some xs ∧ a ∈ h :: xs ∧ (L.Loose op.node → h ≠ op.node) := by
  obtain ⟨h, xs', hs, hm⟩ := ha
  rcases (becomes ok hs).mem ok hm with ⟨he, -, hl⟩ | ⟨xs, hx, hm', hne⟩
  · exact .inl ⟨he, hl⟩
  · exact .inr ⟨h, xs, hx, hm', hne⟩

def step (L : Lists) (op : Op) (ok : L.Allowed op) : Lists where
  seq := op.apply L.seq
  nodup h xs hs := (becomes ok hs).nodup
  own h xs h' xs' a hs hs' ha ha' := by
    rcases (becomes ok hs).mem ok ha with ⟨he, hh, hl⟩ | ⟨ys, hy, hm, hne⟩ <;>
      rcases (becomes ok hs').mem ok ha' with ⟨he', hh', hl'⟩ | ⟨ys', hy', hm', hne'⟩
    · exact hh.trans hh'.symm
    · subst he
      exact absurd hm' (hl.not_mem hy' (hne' hl))
    · subst he'
      exact absurd hm (hl'.not_mem hy (hne hl'))
    · exact L.own h ys h' ys' a hy hy' hm hm'
  apart a ha b hb hab := by
    rcases mem_nodesOf_apply ok ha with ⟨he, hl⟩ | ⟨h, xs, hx, hm, hne⟩ <;>
      rcases mem_nodesOf_apply ok hb with ⟨he', hl'⟩ | ⟨h', xs', hx', hm', hne'⟩
    · exact absurd (he.trans he'.symm) hab
    · subst he
      exact (hl.apart h' xs' hx' (hne' hl) b hm').symm
    · subst he'
      exact hl'.apart h xs hx (hne hl') a hm
    · exact L.apart a ⟨h, xs, hx, hm⟩ b ⟨h', xs', hx', hm'⟩ hab
  lt a ha := by
    rcases mem_nodesOf_apply ok ha with ⟨-, hl⟩ | ⟨h, xs, hx, hm, -⟩
    · exact hl.lt
    · exact L.lt a ⟨h, xs, hx, hm⟩

end Lists

/-! ## Refinement -/

/-- The links in `m` are the rings of the lists. -/
def Refines (m : Mem) (L : Lists) : Prop := ∀ h xs, L.seq h = some xs → Ring (Linked m) (h :: xs)

section step

variable {L : Lists} {m : Mem} {op : Op} {h node a : Nat} {xs xs' : List Nat}

theorem Lists.nodes (hs : L.seq h = some xs) : Nodes (h :: xs) :=
  ⟨fun a ha b hb => L.apart a ⟨h, xs, hs, ha⟩ b ⟨h, xs, hs, hb⟩, fun a ha => L.lt a ⟨h, xs, hs, ha⟩⟩

theorem Lists.Loose.nodes (hl : L.Loose node) (hs : L.seq h = some xs) (hne : h ≠ node) :
    Nodes (node :: h :: xs) := by
  have hn := Lists.nodes hs
  have hapart := hl.apart h xs hs hne
  refine ⟨fun a ha b hb hab => ?_, fun a ha => ?_⟩
  · rcases List.mem_cons.1 ha with rfl | ha' <;> rcases List.mem_cons.1 hb with rfl | hb'
    · exact absurd rfl hab
    · exact (hapart b hb').symm
    · exact hapart a ha'
    · exact hn.sep a ha' b hb' hab
  · rcases List.mem_cons.1 ha with rfl | ha
    · exact hl.lt
    · exact hn.lt a ha

/-- The bytes an operation may write: the node's, and those of the lists it works on. -/
def Op.writes (seq : Nat → Option (List Nat)) (op : Op) : Set Nat :=
  {x | ∃ a, a ≤ x ∧ x < a + 16 ∧
    (a = op.node ∨ ∃ h xs, seq h = some xs ∧ op.On seq h ∧ a ∈ h :: xs)}

theorem Op.subset_writes (hs : L.seq h = some xs) (hon : op.On L.seq h) :
    linkBytes (op.node :: h :: xs) ⊆ op.writes L.seq := by
  rintro x ⟨a, ha, hax, hxa⟩
  refine ⟨a, hax, hxa, ?_⟩
  exact (List.mem_cons.1 ha).imp_right fun ha => ⟨h, xs, hs, hon, ha⟩

theorem Refines.del {l₁ l₂ : List Nat} (hr : Refines m L)
    (hs : L.seq h = some (l₁ ++ node :: l₂)) :
    Ring (Linked (mlistDel m node)) (h :: (l₁ ++ l₂)) ∧
      Frame (linkBytes (h :: (l₁ ++ node :: l₂))) m (mlistDel m node) := by
  have hring : Ring (Linked m) ((h :: l₁) ++ node :: l₂) := hr h _ hs
  have hne : (h :: l₁) ++ l₂ ≠ [] := List.cons_ne_nil h _
  exact ring_mlistDel (Lists.nodes hs) hne hring

theorem Refines.frame_del (hr : Refines m L) (hs : L.seq h = some xs) (hm : node ∈ xs) :
    Frame (linkBytes (h :: xs)) m (mlistDel m node) := by
  obtain ⟨l₁, l₂, rfl⟩ := List.append_of_mem hm
  exact (hr.del hs).2

/-- **Every operation writes to its node and to the lists it works on only.** -/
theorem Refines.frame (hr : Refines m L) (ok : L.Allowed op) :
    Frame (op.writes L.seq) m (op.exec m) := by
  cases op with
  | init node =>
    refine (frame_mlistInit m node).mono fun x hx => ?_
    obtain ⟨a, ha, hax⟩ := hx
    exact ⟨a, hax.1, hax.2, .inl (List.mem_singleton.1 ha)⟩
  | add head node =>
    obtain ⟨⟨xs, hs⟩, hne, hl⟩ := ok
    have hon : (Op.add head node).On L.seq head := Or.inl rfl
    have hf := (ring_mlistAdd (hl.nodes hs hne) (hl.not_mem hs hne) (hr head xs hs)).2
    exact hf.mono (Op.subset_writes hs hon)
  | addTail head node =>
    obtain ⟨⟨xs, hs⟩, hne, hl⟩ := ok
    have hon : (Op.addTail head node).On L.seq head := Or.inl rfl
    have hf := (ring_mlistAddTail (hl.nodes hs hne) (hl.not_mem hs hne) (hr head xs hs)).2
    exact hf.mono (Op.subset_writes hs hon)
  | del node =>
    obtain ⟨h, xs, hs, hm⟩ := ok
    have hon : (Op.del node).On L.seq h := ⟨xs, hs, hm⟩
    have hsub := Op.subset_writes hs hon
    exact (hr.frame_del hs hm).mono ((linkBytes_mono (List.subset_cons_self _ _)).trans hsub)
  | deinit node =>
    obtain ⟨h, xs, hs, hm⟩ := ok
    have hon : (Op.deinit node).On L.seq h := ⟨xs, hs, hm⟩
    have hsub := Op.subset_writes hs hon
    rw [Op.exec, mlistDeinit_eq]
    exact (hr.frame_del hs hm).mono ((linkBytes_mono (List.subset_cons_self _ _)).trans hsub)

theorem Lists.node_apart (ok : L.Allowed op) (hs : L.seq h = some xs) (hoff : ¬ op.On L.seq h) :
    ∀ a ∈ h :: xs, a + 16 ≤ op.node ∨ op.node + 16 ≤ a := by
  intro a ha
  cases op with
  | init node => exact Loose.apart ok h xs hs hoff a ha
  | add head node | addTail head node =>
    exact ok.2.2.apart h xs hs (fun he => hoff (Or.inr he)) a ha
  | del node | deinit node =>
    obtain ⟨h', ys, hy, hm⟩ := ok
    have hm' : node ∈ h' :: ys := List.mem_cons_of_mem h' hm
    refine L.apart a ⟨h, xs, hs, ha⟩ node ⟨h', ys, hy, hm'⟩ fun he => hoff ?_
    obtain rfl : h = h' := L.own h xs h' ys a hs hy ha (he ▸ hm')
    exact ⟨ys, hy, hm⟩

theorem Lists.disjoint_writes (ok : L.Allowed op) (hs : L.seq h = some xs)
    (hoff : ¬ op.On L.seq h) : Disjoint (linkBytes (h :: xs)) (op.writes L.seq) := by
  rw [Set.disjoint_left]
  rintro x ⟨a, ha, hax, hxa⟩ ⟨b, hbx, hxb, hb⟩
  rcases hb with rfl | ⟨h', ys, hy, hon, hb⟩
  · have := L.node_apart ok hs hoff a ha
    omega
  · have hab : a ≠ b := fun he => hoff (L.own h xs h' ys a hs hy ha (he ▸ hb) ▸ hon)
    have := L.apart a ⟨h, xs, hs, ha⟩ b ⟨h', ys, hy, hb⟩ hab
    omega

/-- **Each operation refines its effect on the sequences.** -/
theorem Refines.step (hr : Refines m L) (ok : L.Allowed op) :
    Refines (op.exec m) (L.step op ok) := by
  intro h xs' hs'
  cases Lists.becomes ok hs' with
  | kept hs hoff => exact ring_frame (hr h xs' hs) (hr.frame ok) (Lists.disjoint_writes ok hs hoff)
  | init hl => exact ring_mlistInit hl.lt m
  | add hs hne hl => exact (ring_mlistAdd (hl.nodes hs hne) (hl.not_mem hs hne) (hr h _ hs)).1
  | addTail hs hne hl =>
    exact (ring_mlistAddTail (hl.nodes hs hne) (hl.not_mem hs hne) (hr h _ hs)).1
  | del hs => exact (hr.del hs).1
  | deinit hs =>
    rw [Op.exec, mlistDeinit_eq]
    exact (hr.del hs).1

end step

/-! ## Runs -/

/-- What the list with head `h` shows to its readers: the members `xs`. -/
structure Shown (m : Mem) (h : Nat) (xs : List Nat) : Prop where
  inverse : ∀ a ∈ h :: xs, prev m (next m a) = a ∧ next m (prev m a) = a
  forward : List.iterate (next m) h (xs.length + 2) = h :: (xs ++ [h])
  backward : List.iterate (prev m) h (xs.length + 2) = h :: (xs.reverse ++ [h])
  empty : mlistEmpty m h = if xs = [] then MTRUE else MFALSE

theorem shown {m : Mem} {h : Nat} {xs : List Nat} (hr : Ring (Linked m) (h :: xs)) :
    Shown m h xs where
  inverse a ha := by
    obtain ⟨b, -, hab⟩ := hr.exists_next ha
    obtain ⟨c, -, hca⟩ := hr.exists_prev ha
    exact ⟨by rw [hab.1, hab.2], by rw [hca.2, hca.1]⟩
  forward := hr.iterate fun _ _ hl => hl.1
  backward := by
    have hw := hr.reverse.iterate (f := prev m) fun _ _ hl => hl.2
    rwa [List.length_reverse] at hw
  empty := mlistEmpty_eq hr

/-- What an allowed operation does: its effect on the sequences, the poison in the links of a
deleted node, nothing to any other list, and an insertion is undone by deleting the node. -/
structure Does (m : Mem) (L : Lists) (op : Op) (ok : L.Allowed op) : Prop where
  refines : Refines (op.exec m) (L.step op ok)
  frame : Frame (op.writes L.seq) m (op.exec m)
  others : ∀ h xs, L.seq h = some xs → ¬ op.On L.seq h →
    (L.step op ok).seq h = some xs ∧ ∀ x ∈ linkBytes (h :: xs), op.exec m x = m x
  poison : (∃ h xs, L.seq h = some xs ∧ op.node ∈ xs) →
    prev (op.exec m) op.node = MLIST_POISON ∧ next (op.exec m) op.node = MLIST_POISON
  undone : ∀ head node, op = .add head node ∨ op = .addTail head node →
    Frame (linkBytes [node]) m (mlistDel (op.exec m) node) ∧
      Frame (linkBytes [node]) m (mlistDeinit (op.exec m) node)

/-- The heaps and sequences reached from `m₀`, `L₀`. -/
inductive Run (m₀ : Mem) (L₀ : Lists) : Mem → Lists → Prop
  | refl : Run m₀ L₀ m₀ L₀
  | step {m : Mem} {L : Lists} {op : Op} (hr : Run m₀ L₀ m L) (ok : L.Allowed op) :
    Run m₀ L₀ (op.exec m) (L.step op ok)

variable {m₀ m : Mem} {L₀ L : Lists} {op : Op} {h : Nat} {xs : List Nat}

/-- An operation on a list that stays as it is works on another one. -/
theorem Lists.step_kept (ok : L.Allowed op) (hs : L.seq h = some xs) (hoff : ¬ op.On L.seq h) :
    (L.step op ok).seq h = some xs := by
  show op.apply L.seq h = some xs
  cases op with
  | init node => exact (if_neg hoff).trans hs
  | add head node | addTail head node =>
    rw [Op.apply, if_neg fun he => hoff (Or.inr he), if_neg fun he => hoff (Or.inl he), hs]
  | del node | deinit node =>
    have hnot : node ∉ xs := fun hm => hoff ⟨xs, hs, hm⟩
    rw [Op.apply, hs, Option.map_some, List.erase_of_not_mem hnot]

theorem Refines.undone (hr : Refines m L) {head node : Nat} (ok : L.Allowed (.add head node)) :
    Frame (linkBytes [node]) m (mlistDel (mlistAdd m head node) node) ∧
      Frame (linkBytes [node]) m (mlistDel (mlistAddTail m head node) node) := by
  obtain ⟨⟨xs, hs⟩, hne, hl⟩ := ok
  have hn := hl.nodes hs hne
  have hnot := hl.not_mem hs hne
  exact ⟨frame_mlistDel_mlistAdd hn hnot (hr head xs hs),
    frame_mlistDel_mlistAddTail hn hnot (hr head xs hs)⟩

theorem Refines.does (hr : Refines m L) (ok : L.Allowed op) : Does m L op ok where
  refines := hr.step ok
  frame := hr.frame ok
  others h xs hs hoff := by
    refine ⟨Lists.step_kept ok hs hoff, fun x hx => hr.frame ok x ?_⟩
    exact Set.disjoint_left.1 (Lists.disjoint_writes ok hs hoff) hx
  poison hm := by
    obtain ⟨h, xs, hs, hm⟩ := hm
    cases op with
    | init node => exact absurd ok (Lists.not_loose hs hm)
    | add head node | addTail head node => exact absurd ok.2.2 (Lists.not_loose hs hm)
    | del node => exact poison_mlistDel m node
    | deinit node =>
      rw [Op.exec, mlistDeinit_eq]
      exact poison_mlistDel m node
  undone head node hop := by
    rcases hop with rfl | rfl
    · rw [mlistDeinit_eq]
      exact ⟨(hr.undone ok).1, (hr.undone ok).1⟩
    · rw [mlistDeinit_eq]
      exact ⟨(hr.undone ok).2, (hr.undone ok).2⟩

theorem Run.refines (hrun : Run m₀ L₀ m L) (h₀ : Refines m₀ L₀) : Refines m L := by
  induction hrun with
  | refl => exact h₀
  | step hr ok ih => exact ih.step ok

/-- **The intrusive lists are their sequences**, in every state of every run: each list shows its
sequence to its readers, and each allowed operation has its effect on the sequences and no other. -/
theorem Run.lists (hrun : Run m₀ L₀ m L) (h₀ : Refines m₀ L₀) :
    (∀ h xs, L.seq h = some xs → Shown m h xs) ∧
      ∀ op (ok : L.Allowed op), Does m L op ok := by
  have hr := hrun.refines h₀
  exact ⟨fun h xs hs => shown (hr h xs hs), fun op ok => hr.does ok⟩

def Lists.Within (L : Lists) (nodes : List Nat) : Prop :=
  ∀ h xs, L.seq h = some xs → ∀ a ∈ h :: xs, a ∈ nodes

theorem Lists.Within.loose {nodes : List Nat} (hw : L.Within nodes) {node : Nat}
    (hlt : node < 2 ^ 64) (hap : ∀ a ∈ nodes, a + 16 ≤ node ∨ node + 16 ≤ a) : L.Loose node := by
  refine ⟨hlt, fun xs hs => ?_, fun h xs hs _ a ha => hap a (hw h xs hs a ha)⟩
  have := hap node (hw node xs hs node List.mem_cons_self)
  omega

theorem Lists.Within.step {nodes : List Nat} (hw : L.Within nodes) (ok : L.Allowed op) :
    (L.step op ok).Within (op.node :: nodes) := by
  intro h xs hs a ha
  rcases (Lists.becomes ok hs).mem ok ha with ⟨rfl, -⟩ | ⟨ys, hy, hm, -⟩
  · exact List.mem_cons_self
  · exact List.mem_cons_of_mem _ (hw h ys hy a hm)

/-- Two lists; two nodes go to the first, one to the second, and one leaves again. -/
theorem Run.lists_two : ∃ m L, Run ⟨fun _ => 0⟩ Lists.none m L ∧ L.seq 4096 = some [8224] ∧
    L.seq 4112 = some [8208] ∧ Shown m 4096 [8224] ∧ Shown m 4112 [8208] ∧
    ∀ op (ok : L.Allowed op), Does m L op ok := by
  have w₀ : Lists.none.Within [] := fun h xs hs => absurd hs (by simp [Lists.none])
  have ok₁ : Lists.none.Allowed (.init 4096) := w₀.loose (by decide) (by decide)
  have ok₂ : (Lists.none.step _ ok₁).Allowed (.init 4112) :=
    (w₀.step ok₁).loose (by decide) (by decide)
  have w₂ := (w₀.step ok₁).step ok₂
  have ok₃ : (Lists.step _ _ ok₂).Allowed (.add 4096 8192) :=
    ⟨⟨[], rfl⟩, by decide, w₂.loose (by decide) (by decide)⟩
  have w₃ := w₂.step ok₃
  have ok₄ : (Lists.step _ _ ok₃).Allowed (.addTail 4112 8208) :=
    ⟨⟨[], rfl⟩, by decide, w₃.loose (by decide) (by decide)⟩
  have w₄ := w₃.step ok₄
  have ok₅ : (Lists.step _ _ ok₄).Allowed (.addTail 4096 8224) :=
    ⟨⟨[8192], rfl⟩, by decide, w₄.loose (by decide) (by decide)⟩
  have ok₆ : (Lists.step _ _ ok₅).Allowed (.del 8192) := ⟨4096, [8192, 8224], rfl, by decide⟩
  have hstart : Run ⟨fun _ => 0⟩ Lists.none ⟨fun _ => 0⟩ Lists.none := .refl
  have hrun := (((((hstart.step ok₁).step ok₂).step ok₃).step ok₄).step ok₅).step ok₆
  have hnone : Refines ⟨fun _ => 0⟩ Lists.none := fun h xs hs => absurd hs (by simp [Lists.none])
  obtain ⟨hshown, hdoes⟩ := Run.lists hrun hnone
  exact ⟨_, _, hrun, rfl, rfl, hshown 4096 [8224] rfl, hshown 4112 [8208] rfl, hdoes⟩

end FwkMlib.Mlist
