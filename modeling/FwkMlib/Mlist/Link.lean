import FwkMlib.Lib.Bytes
import FwkMlib.Lib.Ring

/-!
# The intrusive list

`mlist.h`: a node is two link words in memory, `prev` at its address and `next` behind it, and the
operations store links of the node and of its neighbours, one word after the other.

* `prev_addRaw`, `next_addRaw`, `prev_delRaw`, `next_delRaw` : the links after `__mlist_add` and
  `__mlist_del`, on nodes that do not overlap (`Nodes`);
* `ring_mlistAddTail`, `ring_mlistDel` : the list seen as a ring of links (`Linked`) gains the node
  behind the last one, or loses the node.
-/

namespace FwkMlib.Mlist
open FwkMlib.Lib

/-- `node->prev`. -/
def prev (m : Mem) (node : Nat) : Nat := read64 m node

/-- `node->next`. -/
def next (m : Mem) (node : Nat) : Nat := read64 m (node + 8)

def setPrev (m : Mem) (node v : Nat) : Mem := write64 m node v

def setNext (m : Mem) (node v : Nat) : Mem := write64 m (node + 8) v

def MLIST_POISON : Nat := 0

/-- `__mlist_add`. -/
def addRaw (m : Mem) (head node : Nat) : Mem :=
  let m := setPrev m node head
  let m := setNext m node (next m head)
  let m := setPrev m (next m head) node
  setNext m head node

/-- `__mlist_del`. -/
def delRaw (m : Mem) (node : Nat) : Mem :=
  let m := setNext m (prev m node) (next m node)
  setPrev m (next m node) (prev m node)

def mlistInit (m : Mem) (head : Nat) : Mem :=
  let m := setNext m head head
  setPrev m head head

def MTRUE : Nat := 1
def MFALSE : Nat := 0

def mlistDeinit (m : Mem) (head : Nat) : Mem :=
  let m := delRaw m head
  let m := setNext m head MLIST_POISON
  setPrev m head MLIST_POISON

def mlistEmpty (m : Mem) (head : Nat) : Nat := if next m head = head then MTRUE else MFALSE

def mlistAdd (m : Mem) (head node : Nat) : Mem := addRaw m head node

def mlistAddTail (m : Mem) (head node : Nat) : Mem := addRaw m (prev m head) node

def mlistDel (m : Mem) (node : Nat) : Mem :=
  let m := delRaw m node
  let m := setPrev m node MLIST_POISON
  setNext m node MLIST_POISON

/-! ## Single stores -/

/-- The nodes of `l` do not overlap, and their addresses are addresses. -/
structure Nodes (l : List Nat) : Prop where
  sep : ∀ a ∈ l, ∀ b ∈ l, a ≠ b → a + 16 ≤ b ∨ b + 16 ≤ a
  lt : ∀ a ∈ l, a < 2 ^ 64

variable {l : List Nat} {m : Mem} {a b v node head : Nat}

theorem Nodes.subset {l' : List Nat} (h : Nodes l) (hsub : l' ⊆ l) : Nodes l' :=
  ⟨fun a ha b hb => h.sep a (hsub ha) b (hsub hb), fun a ha => h.lt a (hsub ha)⟩

theorem prev_setPrev (h : Nodes l) (ha : a ∈ l) (hb : b ∈ l) (hv : v ∈ l) :
    prev (setPrev m a v) b = if b = a then v else prev m b := by
  unfold prev setPrev
  split_ifs with he
  · rw [he, read64_write64, Nat.mod_eq_of_lt (h.lt v hv)]
  · have := h.sep a ha b hb (Ne.symm he)
    rw [read64_write64_of_disjoint (by omega)]

theorem next_setNext (h : Nodes l) (ha : a ∈ l) (hb : b ∈ l) (hv : v ∈ l) :
    next (setNext m a v) b = if b = a then v else next m b := by
  unfold next setNext
  split_ifs with he
  · rw [he, read64_write64, Nat.mod_eq_of_lt (h.lt v hv)]
  · have := h.sep a ha b hb (Ne.symm he)
    rw [read64_write64_of_disjoint (by omega)]

theorem prev_setNext (h : Nodes l) (ha : a ∈ l) (hb : b ∈ l) (v : Nat) :
    prev (setNext m a v) b = prev m b := by
  unfold prev setNext
  by_cases he : b = a
  · rw [he, read64_write64_of_disjoint (by omega)]
  · have := h.sep a ha b hb (Ne.symm he)
    rw [read64_write64_of_disjoint (by omega)]

theorem next_setPrev (h : Nodes l) (ha : a ∈ l) (hb : b ∈ l) (v : Nat) :
    next (setPrev m a v) b = next m b := by
  unfold next setPrev
  by_cases he : b = a
  · rw [he, read64_write64_of_disjoint (by omega)]
  · have := h.sep a ha b hb (Ne.symm he)
    rw [read64_write64_of_disjoint (by omega)]

def linkBytes (l : List Nat) : Set Nat := {x | ∃ a ∈ l, a ≤ x ∧ x < a + 16}

theorem linkBytes_mono {l' : List Nat} (h : l ⊆ l') : linkBytes l ⊆ linkBytes l' :=
  fun _ ⟨a, ha, hx⟩ => ⟨a, h ha, hx⟩

theorem frame_setPrev (ha : a ∈ l) (m : Mem) (v : Nat) : Frame (linkBytes l) m (setPrev m a v) := by
  refine (Frame.write64 m a v).mono fun x hx => ⟨a, ha, ?_⟩
  rw [mem_bytesAt] at hx
  omega

theorem frame_setNext (ha : a ∈ l) (m : Mem) (v : Nat) : Frame (linkBytes l) m (setNext m a v) := by
  refine (Frame.write64 m (a + 8) v).mono fun x hx => ⟨a, ha, ?_⟩
  rw [mem_bytesAt] at hx
  omega

/-! ## `__mlist_add` and `__mlist_del` -/

section addRaw

variable (h : Nodes l) (hhead : head ∈ l) (hnext : next m head ∈ l) (hnode : node ∈ l)
  (hne : node ≠ head)

include h hhead hnext hnode hne

theorem addRaw_eq : addRaw m head node =
    setNext (setPrev (setNext (setPrev m node head) node (next m head)) (next m head) node)
      head node := by
  have h₁ : next (setPrev m node head) head = next m head := next_setPrev h hnode hhead head
  have h₂ : next (setNext (setPrev m node head) node (next m head)) head = next m head := by
    rw [next_setNext h hnode hhead hnext, if_neg (Ne.symm hne), h₁]
  unfold addRaw
  simp only [h₁, h₂]

theorem prev_addRaw (hb : b ∈ l) :
    prev (addRaw m head node) b =
      if b = next m head then node else if b = node then head else prev m b := by
  rw [addRaw_eq h hhead hnext hnode hne, prev_setNext h hhead hb, prev_setPrev h hnext hb hnode,
    prev_setNext h hnode hb, prev_setPrev h hnode hb hhead]

theorem next_addRaw (hb : b ∈ l) :
    next (addRaw m head node) b =
      if b = head then node else if b = node then next m head else next m b := by
  rw [addRaw_eq h hhead hnext hnode hne, next_setNext h hhead hb hnode, next_setPrev h hnext hb,
    next_setNext h hnode hb hnext, next_setPrev h hnode hb]

theorem frame_addRaw : Frame (linkBytes l) m (addRaw m head node) := by
  rw [addRaw_eq h hhead hnext hnode hne]
  have f₁ := frame_setPrev hnode m head
  have f₂ := frame_setNext hnode (setPrev m node head) (next m head)
  have f₃ := frame_setPrev hnext (setNext (setPrev m node head) node (next m head)) node
  exact ((f₁.trans_self f₂).trans_self f₃).trans_self (frame_setNext hhead _ node)

end addRaw

section delRaw

variable (h : Nodes l) (hnode : node ∈ l) (hprev : prev m node ∈ l) (hnext : next m node ∈ l)
  (hne : prev m node ≠ node)

include h hnode hprev hnext hne

theorem delRaw_eq : delRaw m node =
    setPrev (setNext m (prev m node) (next m node)) (next m node) (prev m node) := by
  have h₁ : next (setNext m (prev m node) (next m node)) node = next m node := by
    rw [next_setNext h hprev hnode hnext, if_neg (Ne.symm hne)]
  have h₂ : prev (setNext m (prev m node) (next m node)) node = prev m node :=
    prev_setNext h hprev hnode _
  unfold delRaw
  simp only [h₁, h₂]

theorem prev_delRaw (hb : b ∈ l) :
    prev (delRaw m node) b = if b = next m node then prev m node else prev m b := by
  rw [delRaw_eq h hnode hprev hnext hne, prev_setPrev h hnext hb hprev, prev_setNext h hprev hb]

theorem next_delRaw (hb : b ∈ l) :
    next (delRaw m node) b = if b = prev m node then next m node else next m b := by
  rw [delRaw_eq h hnode hprev hnext hne, next_setPrev h hnext hb, next_setNext h hprev hb hnext]

theorem frame_delRaw : Frame (linkBytes l) m (delRaw m node) := by
  rw [delRaw_eq h hnode hprev hnext hne]
  exact (frame_setNext hprev m _).trans_self (frame_setPrev hnext _ _)

end delRaw

/-! ## Lists as rings -/

/-- `b` follows `a`. -/
def Linked (m : Mem) (a b : Nat) : Prop := next m a = b ∧ prev m b = a

/-- A ring of links only depends on the link words of its nodes. -/
theorem ring_frame {W : Set Nat} {m' : Mem} (h : Ring (Linked m) l) (hf : Frame W m m')
    (hd : Disjoint (linkBytes l) W) : Ring (Linked m') l := by
  have hword : ∀ a ∈ l, ∀ k, k + 8 ≤ 16 → read64 m' (a + k) = read64 m (a + k) := by
    intro a ha k hk
    refine read64_congr fun i hi => hf _ fun hw => ?_
    refine Set.disjoint_left.1 hd ?_ hw
    exact ⟨a, ha, by omega, by omega⟩
  refine h.imp fun a ha b hb hab => ⟨?_, ?_⟩
  · rw [← hab.1]
    exact hword a ha 8 le_rfl
  · rw [← hab.2]
    exact hword b hb 0 (by decide)

theorem ring_mlistInit {head : Nat} (hlt : head < 2 ^ 64) (m : Mem) :
    Ring (Linked (mlistInit m head)) [head] := by
  have hn : Nodes [head] := by
    refine ⟨fun a ha b hb hne => ?_, fun a ha => ?_⟩
    · rw [List.mem_singleton] at ha hb
      exact absurd (ha.trans hb.symm) hne
    · rw [List.mem_singleton] at ha
      rw [ha]
      exact hlt
  have hmem : head ∈ [head] := List.mem_singleton_self head
  refine Ring.singleton ⟨?_, ?_⟩
  · unfold mlistInit
    rw [next_setPrev hn hmem hmem, next_setNext hn hmem hmem hmem, if_pos rfl]
  · unfold mlistInit
    rw [prev_setPrev hn hmem hmem hmem, if_pos rfl]

theorem frame_mlistInit (m : Mem) (head : Nat) : Frame (linkBytes [head]) m (mlistInit m head) :=
  (frame_setNext (List.mem_singleton_self head) m head).trans_self
    (frame_setPrev (List.mem_singleton_self head) _ head)

/-- **`__mlist_add`** behind the last node of a ring. -/
theorem ring_addRaw {last : Nat} (hn : Nodes (node :: a :: l)) (hnode : node ∉ a :: l)
    (h : Ring (Linked m) (a :: l)) (hlast : last ∈ a :: l) (hlink : Linked m last a) :
    Ring (Linked (addRaw m last node)) (a :: l ++ [node]) ∧
      Frame (linkBytes (node :: a :: l)) m (addRaw m last node) := by
  have hin : ∀ {x}, x ∈ a :: l → x ∈ node :: a :: l := List.mem_cons_of_mem node
  have hself : node ∈ node :: a :: l := List.mem_cons_self
  have hhead : a ∈ node :: a :: l := hin List.mem_cons_self
  have hne : node ≠ last := fun he => hnode (he ▸ hlast)
  have hnh : node ≠ a := fun he => hnode (he ▸ List.mem_cons_self)
  have hq : next m last ∈ node :: a :: l := by rw [hlink.1]; exact hhead
  refine ⟨?_, frame_addRaw hn (hin hlast) hq hself hne⟩
  have hprev : ∀ b ∈ node :: a :: l, prev (addRaw m last node) b =
      if b = a then node else if b = node then last else prev m b := fun b hb => by
    rw [prev_addRaw hn (hin hlast) hq hself hne hb, hlink.1]
  have hnext : ∀ b ∈ node :: a :: l, next (addRaw m last node) b =
      if b = last then node else if b = node then a else next m b := fun b hb => by
    rw [next_addRaw hn (hin hlast) hq hself hne hb, hlink.1]
  refine h.snoc hnode (fun u hu v hv huv => ⟨?_, ?_⟩) (fun u hu huv => ⟨?_, ?_⟩) ⟨?_, ?_⟩
  · -- the last node is the only one whose forward link changes, and it leads to the first
    have hv' : v ≠ a := fun he => (List.nodup_cons.1 h.nodup).1 (he ▸ hv)
    have hul : u ≠ last := fun he => hv' (by rw [← huv.1, he, hlink.1])
    have hun : u ≠ node := fun he => hnode (he ▸ hu)
    rw [hnext u (hin hu), if_neg hul, if_neg hun, huv.1]
  · have hv' : v ≠ a := fun he => (List.nodup_cons.1 h.nodup).1 (he ▸ hv)
    have hvn : v ≠ node := fun he => hnode (he ▸ List.mem_cons_of_mem a hv)
    rw [hprev v (hin (List.mem_cons_of_mem a hv)), if_neg hv', if_neg hvn, huv.2]
  · have hul : u = last := by rw [← huv.2, hlink.2]
    rw [hnext u (hin hu), if_pos hul]
  · have hul : u = last := by rw [← huv.2, hlink.2]
    rw [hprev node hself, if_neg hnh, if_pos rfl, hul]
  · rw [hnext node hself, if_neg hne, if_pos rfl]
  · rw [hprev a hhead, if_pos rfl]

/-- **`mlist_add_tail`** puts the node behind the last one. -/
theorem ring_mlistAddTail (hn : Nodes (node :: head :: l)) (hnode : node ∉ head :: l)
    (h : Ring (Linked m) (head :: l)) :
    Ring (Linked (mlistAddTail m head node)) (head :: l ++ [node]) ∧
      Frame (linkBytes (node :: head :: l)) m (mlistAddTail m head node) := by
  obtain ⟨last, hlast, hlink⟩ := h.exists_prev (List.mem_cons_self : head ∈ head :: l)
  have hp : prev m head = last := hlink.2
  unfold mlistAddTail
  rw [hp]
  exact ring_addRaw hn hnode h hlast hlink

/-- **`mlist_add`** puts the node behind the head: the ring entered behind the head has the head
for its last node. -/
theorem ring_mlistAdd (hn : Nodes (node :: head :: l)) (hnode : node ∉ head :: l)
    (h : Ring (Linked m) (head :: l)) :
    Ring (Linked (mlistAdd m head node)) (head :: node :: l) ∧
      Frame (linkBytes (node :: head :: l)) m (mlistAdd m head node) := by
  unfold mlistAdd
  cases l with
  | nil =>
    have hmem : head ∈ [head] := List.mem_singleton_self head
    exact ring_addRaw hn hnode h hmem h.rel_self
  | cons b l =>
    have hrot : Ring (Linked m) (b :: l ++ [head]) := by
      have hsplit : Ring (Linked m) ([head] ++ b :: l) := h
      exact hsplit.rotate
    have hsub : ∀ x, x ∈ b :: (l ++ [head]) ↔ x ∈ head :: b :: l := fun x => by
      simp only [List.mem_cons, List.mem_append, List.mem_nil_iff, or_false]
      tauto
    have hn' : Nodes (node :: b :: (l ++ [head])) := by
      refine hn.subset (List.cons_subset_cons node fun x hx => (hsub x).1 hx)
    have hlast : head ∈ b :: (l ++ [head]) := by simp
    obtain ⟨hr, hf⟩ := ring_addRaw hn' (fun hx => hnode ((hsub node).1 hx)) hrot hlast h.rel_head
    constructor
    · have hsplit : Ring (Linked (addRaw m head node)) ((b :: l) ++ [head, node]) := by
        simpa using hr
      exact hsplit.rotate
    · refine hf.mono (linkBytes_mono ?_)
      exact List.cons_subset_cons node fun x hx => (hsub x).1 hx

section mlistDel

variable {l₁ l₂ : List Nat} (hn : Nodes (l₁ ++ node :: l₂)) (hne : l₁ ++ l₂ ≠ [])
  (h : Ring (Linked m) (l₁ ++ node :: l₂))

include hne h

/-- A node with company is linked to others. -/
theorem linked_others : ∃ p ∈ l₁ ++ l₂, ∃ q ∈ l₁ ++ l₂, Linked m p node ∧ Linked m node q := by
  have hself : node ∈ l₁ ++ node :: l₂ := List.mem_append_right l₁ List.mem_cons_self
  have hmem : ∀ {x}, x ∈ l₁ ++ node :: l₂ → x ≠ node → x ∈ l₁ ++ l₂ := by
    intro x hx hxn
    simp only [List.mem_append, List.mem_cons] at hx ⊢
    exact hx.imp_right fun hx => hx.resolve_left hxn
  obtain ⟨p, hp, hpn⟩ := h.exists_prev hself
  obtain ⟨q, hq, hnq⟩ := h.exists_next hself
  have hqn : q ≠ node := by
    have hr : Ring (Linked m) (node :: (l₂ ++ l₁)) := by simpa using h.rotate
    cases hm : l₂ ++ l₁ with
    | nil => exact absurd (List.append_eq_nil_iff.1 hm).symm fun hc => hne (by rw [hc.1, hc.2]; rfl)
    | cons c rest =>
      rw [hm] at hr
      have hnc := hr.rel_head.1
      rw [← hnq.1, hnc]
      exact fun he => (List.nodup_cons.1 hr.nodup).1 (he ▸ List.mem_cons_self)
  have hpn' : p ≠ node := fun he => hqn (by rw [← hnq.1, ← he, hpn.1, he])
  exact ⟨p, hmem hp hpn', q, hmem hq hqn, hpn, hnq⟩

include hn

/-- **`mlist_del`** takes the node out and leaves the others in their order. -/
theorem ring_mlistDel :
    Ring (Linked (mlistDel m node)) (l₁ ++ l₂) ∧
      Frame (linkBytes (l₁ ++ node :: l₂)) m (mlistDel m node) := by
  obtain ⟨p, hp, q, hq, hpn, hnq⟩ := linked_others hne h
  have hself : node ∈ l₁ ++ node :: l₂ := List.mem_append_right l₁ List.mem_cons_self
  have hin : ∀ {x}, x ∈ l₁ ++ l₂ → x ∈ l₁ ++ node :: l₂ := by
    intro x hx
    simp only [List.mem_append, List.mem_cons] at hx ⊢
    exact hx.imp_right .inr
  have hnot : ∀ {x}, x ∈ l₁ ++ l₂ → x ≠ node := fun hx he =>
    (List.nodup_middle.1 h.nodup |> List.nodup_cons.1).1 (he ▸ hx)
  have hprev : prev m node ∈ l₁ ++ node :: l₂ := by rw [hpn.2]; exact hin hp
  have hnext : next m node ∈ l₁ ++ node :: l₂ := by rw [hnq.1]; exact hin hq
  have hpne : prev m node ≠ node := by rw [hpn.2]; exact hnot hp
  -- the poison goes into the node's own links only
  have hp' : ∀ b ∈ l₁ ++ l₂, prev (mlistDel m node) b = if b = q then p else prev m b := by
    intro b hb
    have hsep := hn.sep node hself b (hin hb) (Ne.symm (hnot hb))
    have h₁ : prev (mlistDel m node) b = prev (delRaw m node) b := by
      unfold mlistDel prev setPrev setNext
      simp only
      rw [read64_write64_of_disjoint (by omega), read64_write64_of_disjoint (by omega)]
    rw [h₁, prev_delRaw hn hself hprev hnext hpne (hin hb), hnq.1, hpn.2]
  have hn' : ∀ b ∈ l₁ ++ l₂, next (mlistDel m node) b = if b = p then q else next m b := by
    intro b hb
    have hsep := hn.sep node hself b (hin hb) (Ne.symm (hnot hb))
    have h₁ : next (mlistDel m node) b = next (delRaw m node) b := by
      unfold mlistDel next setPrev setNext
      simp only
      rw [read64_write64_of_disjoint (by omega), read64_write64_of_disjoint (by omega)]
    rw [h₁, next_delRaw hn hself hprev hnext hpne (hin hb), hnq.1, hpn.2]
  refine ⟨h.remove (fun u hu v hv huv => ⟨?_, ?_⟩) fun u hu v hv hun hnv => ⟨?_, ?_⟩, ?_⟩
  · have hup : u ≠ p := fun he => hnot hv (by rw [← huv.1, he, hpn.1])
    rw [hn' u hu, if_neg hup, huv.1]
  · have hvq : v ≠ q := fun he => hnot hu (by rw [← huv.2, he, hnq.2])
    rw [hp' v hv, if_neg hvq, huv.2]
  · have hup : u = p := by rw [← hun.2, hpn.2]
    rw [hn' u hu, if_pos hup, ← hnq.1, hnv.1]
  · have hvq : v = q := by rw [← hnv.1, hnq.1]
    rw [hp' v hv, if_pos hvq, ← hpn.2, hun.2]
  · have f := frame_delRaw hn hself hprev hnext hpne
    exact (f.trans_self (frame_setPrev hself _ _)).trans_self (frame_setNext hself _ _)

end mlistDel

/-- The order of the two poison stores is immaterial. -/
theorem mlistDeinit_eq (m : Mem) (head : Nat) : mlistDeinit m head = mlistDel m head := by
  unfold mlistDeinit mlistDel setPrev setNext
  ext x : 2
  by_cases hx : x ∈ bytesAt head 8
  · have hout : x ∉ bytesAt (head + 8) 8 := by
      rw [mem_bytesAt] at hx ⊢
      omega
    rw [Frame.write64 _ (head + 8) _ x hout]
    apply write64_congr
    exact fun hc => absurd hx hc
  · rw [Frame.write64 _ head _ x hx]
    apply write64_congr
    intro _
    rw [Frame.write64 _ head _ x hx]

theorem poison_mlistDel (m : Mem) (node : Nat) :
    prev (mlistDel m node) node = MLIST_POISON ∧ next (mlistDel m node) node = MLIST_POISON := by
  unfold mlistDel prev next setPrev setNext
  constructor
  · rw [read64_write64_of_disjoint (by omega), read64_write64]
    rfl
  · rw [read64_write64]
    rfl

theorem mlistEmpty_eq {head : Nat} (h : Ring (Linked m) (head :: l)) :
    mlistEmpty m head = if l = [] then MTRUE else MFALSE := by
  unfold mlistEmpty
  cases l with
  | nil => rw [if_pos h.rel_self.1, if_pos rfl]
  | cons a l =>
    have hne : next m head ≠ head := by
      rw [h.rel_head.1]
      exact fun he => (List.nodup_cons.1 h.nodup).1 (he ▸ List.mem_cons_self)
    rw [if_neg hne, if_neg (List.cons_ne_nil a l)]

/-- The links of a ring are those of any other memory in which the same nodes form the ring. -/
theorem links_eq {m' : Mem} (h : Ring (Linked m) l) (h' : Ring (Linked m') l) (ha : a ∈ l) :
    prev m' a = prev m a ∧ next m' a = next m a := by
  have hboth := h.and h'
  obtain ⟨b, -, hb, hb'⟩ := hboth.exists_next ha
  obtain ⟨c, -, hc, hc'⟩ := hboth.exists_prev ha
  exact ⟨hc'.2.trans hc.2.symm, hb'.1.trans hb.1.symm⟩

/-- Memories that agree outside the link words of one ring agree everywhere else. -/
theorem frame_of_ring {m' : Mem} {l' : List Nat} (h : Ring (Linked m) l) (h' : Ring (Linked m') l)
    (hf : Frame (linkBytes (l' ++ l)) m m') : Frame (linkBytes l') m m' := by
  intro x hx
  by_cases hl : x ∈ linkBytes l
  · obtain ⟨a, ha, hax, hxa⟩ := hl
    obtain ⟨hp, hn⟩ := links_eq h h' ha
    by_cases hlow : x < a + 8
    · exact byte_eq_of_readBytes (readBytes_eq_of_read64 hp) hax hlow
    · exact byte_eq_of_readBytes (readBytes_eq_of_read64 hn) (by omega) (by omega)
  · refine hf x fun hx' => ?_
    obtain ⟨a, ha, hax⟩ := hx'
    rcases List.mem_append.1 ha with ha | ha
    · exact hx ⟨a, ha, hax⟩
    · exact hl ⟨a, ha, hax⟩

section undo

variable (hn : Nodes (node :: head :: l)) (hnode : node ∉ head :: l)
  (h : Ring (Linked m) (head :: l))

include hn hnode h

/-- **Deleting the node just put in front** gives every other byte back. -/
theorem frame_mlistDel_mlistAdd :
    Frame (linkBytes [node]) m (mlistDel (mlistAdd m head node) node) := by
  obtain ⟨hr, hf⟩ := ring_mlistAdd hn hnode h
  have hsplit : Ring (Linked (mlistAdd m head node)) ([head] ++ node :: l) := hr
  have hsub : [head] ++ node :: l ⊆ node :: head :: l := by
    intro x hx
    simp only [List.mem_append, List.mem_cons] at hx ⊢
    tauto
  obtain ⟨hr', hf'⟩ := ring_mlistDel (hn.subset hsub) (List.cons_ne_nil head l) hsplit
  exact frame_of_ring h hr' (hf.trans_self (hf'.mono (linkBytes_mono hsub)))

/-- **Deleting the node just put at the back** gives every other byte back. -/
theorem frame_mlistDel_mlistAddTail :
    Frame (linkBytes [node]) m (mlistDel (mlistAddTail m head node) node) := by
  obtain ⟨hr, hf⟩ := ring_mlistAddTail hn hnode h
  have hsub : head :: l ++ [node] ⊆ node :: head :: l := by
    intro x hx
    simp only [List.mem_append, List.mem_cons] at hx ⊢
    tauto
  have hne : head :: l ++ [] ≠ [] := List.cons_ne_nil _ _
  obtain ⟨hr', hf'⟩ := ring_mlistDel (hn.subset hsub) hne hr
  rw [List.append_nil] at hr'
  exact frame_of_ring h hr' (hf.trans_self (hf'.mono (linkBytes_mono hsub)))

end undo

end FwkMlib.Mlist
