import Mathlib.Logic.Function.Basic
import Mathlib.Tactic.Common
import Mathlib.Tactic.SplitIfs

/-!
# Programs under one lock

`Prog` is a program on a shared state, its actions written out: it takes the lock, gives it back, reads
and writes the state, or calls code outside of it.

* `Prog.Disciplined` : along every path the lock is taken only when it is free, held at every other
  action, and given back at the end; whatever state an action finds;
* `Prog.Guarantees` : if the lock is always taken on a state of `J`, or on one of `I` to be given back at
  once, it is given back on one of `I`;
* `Section` : a critical section that ends the program; `Section.guarantees_iff` : what it guarantees
  is seen from one run.
-/

namespace FwkMlib.Lib

variable {σ α β : Type}

/-- The actions of one thread. `access` goes on with what it reads, the state before it writes; a `call`
has no result where the code outside is not to be called; `stuck` is a loop that goes on. -/
inductive Prog (σ α : Type) : Type
  | ret (a : α)
  | acquire (k : Prog σ α)
  | release (k : Prog σ α)
  | access (f : σ → σ) (k : σ → Prog σ α)
  | call (f : σ → Option σ) (k : Prog σ α)
  | stuck

namespace Prog

def bind : Prog σ α → (α → Prog σ β) → Prog σ β
  | .ret a, g => g a
  | .acquire k, g => .acquire (k.bind g)
  | .release k, g => .release (k.bind g)
  | .access f k, g => .access f fun s => (k s).bind g
  | .call f k, g => .call f (k.bind g)
  | .stuck, _ => .stuck

instance : Monad (Prog σ) where
  pure := .ret
  bind := .bind

/-- The one thread alone, until it ends. -/
def run : Prog σ α → σ → Option (σ × α)
  | .ret a, s => some (s, a)
  | .acquire k, s => k.run s
  | .release k, s => k.run s
  | .access f k, s => (k s).run (f s)
  | .call f k, s => (f s).bind k.run
  | .stuck, _ => none

/-- The discipline of a thread that holds the lock or not. -/
def Disciplined : Bool → Prog σ α → Prop
  | held, .ret _ => held = false
  | held, .acquire k => held = false ∧ k.Disciplined true
  | held, .release k => held = true ∧ k.Disciplined false
  | held, .access _ k => held = true ∧ ∀ s, (k s).Disciplined true
  | held, .call _ k => held = true ∧ k.Disciplined true
  | _, .stuck => True

def GivesBack (p : Prog σ α) : Prop := ∃ k, p = .release k

/-- What a thread in the state `s` guarantees; between its critical sections the state is anybody's. -/
def Guarantees (J I : σ → Prop) : Prog σ α → σ → Prop
  | .ret _, _ => True
  | .acquire k, _ => ∀ s, J s ∨ k.GivesBack ∧ I s → k.Guarantees J I s
  | .release k, s => I s ∧ k.Guarantees J I s
  | .access f k, s => (k s).Guarantees J I (f s)
  | .call f k, s => ∀ s', f s = some s' → k.Guarantees J I s'
  | .stuck, _ => True

/-- Part of a critical section: no action of the lock. -/
def Inside : Prog σ α → Prop
  | .ret _ => True
  | .acquire _ => False
  | .release _ => False
  | .access _ k => ∀ s, (k s).Inside
  | .call _ k => k.Inside
  | .stuck => True

/-- A critical section at the end of the program. -/
def Section : Prog σ α → Prop
  | .release (.ret _) => True
  | .access _ k => ∀ s, (k s).Section
  | .call _ k => k.Section
  | .stuck => True
  | _ => False

/-! ## The actions -/

def lock : Prog σ Unit := .acquire (.ret ())

def unlock : Prog σ Unit := .release (.ret ())

def reads (f : σ → α) : Prog σ α := .access id fun s => .ret (f s)

def writes (f : σ → σ) : Prog σ Unit := .access f fun _ => .ret ()

def calls (f : σ → Option σ) : Prog σ Unit := .call f (.ret ())

@[simp] theorem pure_eq (a : α) : (pure a : Prog σ α) = .ret a := rfl

@[simp] theorem bind_eq (p : Prog σ α) (g : α → Prog σ β) : p >>= g = p.bind g := rfl

@[simp] theorem ret_bind (a : α) (g : α → Prog σ β) : (ret a : Prog σ α).bind g = g a := rfl

@[simp] theorem lock_bind (g : Unit → Prog σ β) : lock.bind g = .acquire (g ()) := rfl

@[simp] theorem unlock_bind (g : Unit → Prog σ β) : unlock.bind g = .release (g ()) := rfl

@[simp] theorem reads_bind (f : σ → α) (g : α → Prog σ β) :
    (reads f).bind g = .access id fun s => g (f s) := rfl

@[simp] theorem writes_bind (f : σ → σ) (g : Unit → Prog σ β) :
    (writes f).bind g = .access f fun _ => g () := rfl

@[simp] theorem calls_bind (f : σ → Option σ) (g : Unit → Prog σ β) :
    (calls f).bind g = .call f (g ()) := rfl

section run

variable (s : σ) (k : Prog σ α)

@[simp] theorem run_ret (a : α) : (ret a : Prog σ α).run s = some (s, a) := rfl

@[simp] theorem run_acquire : (acquire k).run s = k.run s := rfl

@[simp] theorem run_release : (release k).run s = k.run s := rfl

@[simp] theorem run_access (f : σ → σ) (c : σ → Prog σ α) : (access f c).run s = (c s).run (f s) := rfl

@[simp] theorem run_call (f : σ → Option σ) : (call f k).run s = (f s).bind k.run := rfl

@[simp] theorem run_stuck : (stuck : Prog σ α).run s = none := rfl

end run

variable {p : Prog σ α} {g : α → Prog σ β} {J I : σ → Prop} {s s' : σ}

theorem run_bind (g : α → Prog σ β) : ∀ (p : Prog σ α) (s : σ),
    (p.bind g).run s = (p.run s).bind fun r => (g r.2).run r.1 := by
  intro p
  induction p with
  | ret a => exact fun s => rfl
  | acquire k ih => exact ih
  | release k ih => exact ih
  | access f k ih => exact fun s => ih s (f s)
  | call f k ih =>
    intro s
    show (f s).bind (k.bind g).run = ((f s).bind k.run).bind _
    rw [Option.bind_assoc]
    exact congrArg (f s).bind (funext ih)
  | stuck => exact fun s => rfl

theorem run_discard (p : Prog σ α) (s : σ) :
    (p.bind fun _ => .ret ()).run s = ((p.run s).map Prod.fst).map fun t => (t, ()) := by
  rw [run_bind]
  cases p.run s <;> rfl

/-- `q` goes on where `p` is stuck, and else they run alike. -/
def Extends (p q : Prog σ α) : Prop := ∀ s r, p.run s = some r → q.run s = some r

theorem Extends.refl (p : Prog σ α) : p.Extends p := fun _ _ h => h

theorem Extends.bind {q : Prog σ α} {g' : α → Prog σ β} (h : p.Extends q)
    (hg : ∀ a, (g a).Extends (g' a)) : (p.bind g).Extends (q.bind g') := by
  intro s r hr
  rw [run_bind] at hr ⊢
  obtain ⟨t, ht, hr⟩ := Option.bind_eq_some_iff.1 hr
  rw [h s t ht]
  exact hg t.2 t.1 r hr

/-- Programs that grow with their fuel have one result. -/
theorem Extends.unique {p : Nat → Prog σ α} (h : ∀ n, (p n).Extends (p (n + 1))) {n n' : Nat}
    {r r' : σ × α} (hr : (p n).run s = some r) (hr' : (p n').run s = some r') : r = r' := by
  have hmono : ∀ k n r, (p n).run s = some r → (p (n + k)).run s = some r := by
    intro k
    induction k with
    | zero => exact fun n r hr => hr
    | succ k ih => exact fun n r hr => h (n + k) s r (ih n r hr)
  have hboth := hmono n' n r hr
  rw [Nat.add_comm, hmono n n' r' hr'] at hboth
  exact (Option.some.inj hboth).symm

/-! ## Critical sections -/

section simps

variable {a : α} {k : Prog σ α} {c : σ → Prog σ α} {f : σ → σ} {f' : σ → Option σ} {held : Bool}

@[simp] theorem inside_ret : (ret a : Prog σ α).Inside := trivial

@[simp] theorem inside_access : (access f c).Inside ↔ ∀ s, (c s).Inside := Iff.rfl

@[simp] theorem inside_call : (call f' k).Inside ↔ k.Inside := Iff.rfl

@[simp] theorem inside_stuck : (stuck : Prog σ α).Inside := trivial

@[simp] theorem inside_ite {P : Prop} [Decidable P] {q : Prog σ α} :
    (if P then k else q).Inside ↔ (P → k.Inside) ∧ (¬ P → q.Inside) := by
  split_ifs with h <;> simp [h]

@[simp] theorem inside_writes (f : σ → σ) : (writes f).Inside := fun _ => trivial

@[simp] theorem section_unlock : (unlock : Prog σ Unit).Section := trivial

@[simp] theorem not_section_ret : ¬ (ret a : Prog σ α).Section := id

@[simp] theorem not_section_acquire : ¬ (acquire k).Section := id

@[simp] theorem section_release_ret : (release (ret a) : Prog σ α).Section := trivial

@[simp] theorem section_access : (access f c).Section ↔ ∀ s, (c s).Section := Iff.rfl

@[simp] theorem section_call : (call f' k).Section ↔ k.Section := Iff.rfl

@[simp] theorem section_ite {P : Prop} [Decidable P] {q : Prog σ α} :
    (if P then k else q).Section ↔ (P → k.Section) ∧ (¬ P → q.Section) := by
  split_ifs with h <;> simp [h]

@[simp] theorem disciplined_ret : (ret a : Prog σ α).Disciplined held ↔ held = false := Iff.rfl

@[simp] theorem disciplined_acquire :
    (acquire k).Disciplined held ↔ held = false ∧ k.Disciplined true := Iff.rfl

@[simp] theorem disciplined_release :
    (release k).Disciplined held ↔ held = true ∧ k.Disciplined false := Iff.rfl

@[simp] theorem disciplined_access :
    (access f c).Disciplined held ↔ held = true ∧ ∀ s, (c s).Disciplined true := Iff.rfl

@[simp] theorem disciplined_call :
    (call f' k).Disciplined held ↔ held = true ∧ k.Disciplined true := Iff.rfl

@[simp] theorem guarantees_ret : (ret a : Prog σ α).Guarantees J I s := trivial

@[simp] theorem guarantees_acquire :
    (acquire k).Guarantees J I s ↔ ∀ s, J s ∨ k.GivesBack ∧ I s → k.Guarantees J I s := Iff.rfl

@[simp] theorem guarantees_release :
    (release k).Guarantees J I s ↔ I s ∧ k.Guarantees J I s := Iff.rfl

@[simp] theorem guarantees_access :
    (access f c).Guarantees J I s ↔ (c s).Guarantees J I (f s) := Iff.rfl

@[simp] theorem guarantees_call :
    (call f' k).Guarantees J I s ↔ ∀ s', f' s = some s' → k.Guarantees J I s' := Iff.rfl

end simps

theorem Inside.bind (hp : p.Inside) (hg : ∀ a, (g a).Inside) : (p.bind g).Inside := by
  induction p with
  | ret a => exact hg a
  | acquire k ih => exact hp.elim
  | release k ih => exact hp.elim
  | access f k ih => exact fun s => ih s (hp s)
  | call f k ih => exact ih hp
  | stuck => trivial

/-- A critical section begins with a part of it. -/
theorem Inside.bind_section (hp : p.Inside) (hg : ∀ a, (g a).Section) : (p.bind g).Section := by
  induction p with
  | ret a => exact hg a
  | acquire k ih => exact hp.elim
  | release k ih => exact hp.elim
  | access f k ih => exact fun s => ih s (hp s)
  | call f k ih => exact ih hp
  | stuck => trivial

/-- The lock is given back with nothing left to do. -/
theorem Section.of_release {k : Prog σ α} (h : (release k).Section) : ∃ a, k = .ret a := by
  cases k with
  | ret a => exact ⟨a, rfl⟩
  | acquire k => exact h.elim
  | release k => exact h.elim
  | access f k => exact h.elim
  | call f k => exact h.elim
  | stuck => exact h.elim

theorem section_map (f : α → β) (h : p.Section) : (p.bind fun a => .ret (f a)).Section := by
  induction p with
  | ret a => exact h.elim
  | acquire k ih => exact h.elim
  | release k ih =>
    obtain ⟨a, rfl⟩ := h.of_release
    trivial
  | access f k ih => exact fun s => ih s (h s)
  | call f k ih => exact ih h
  | stuck => trivial

theorem Section.disciplined (h : p.Section) : p.Disciplined true := by
  induction p with
  | ret a => exact h.elim
  | acquire k ih => exact h.elim
  | release k ih =>
    obtain ⟨a, rfl⟩ := h.of_release
    exact ⟨rfl, rfl⟩
  | access f k ih => exact ⟨rfl, fun s => ih s (h s)⟩
  | call f k ih => exact ⟨rfl, ih h⟩
  | stuck => trivial

/-- **A critical section guarantees** what its run ends in. -/
theorem Section.guarantees_iff (h : p.Section) (J I : σ → Prop) (s : σ) :
    p.Guarantees J I s ↔ ∀ r, p.run s = some r → I r.1 := by
  induction p generalizing s with
  | ret a => exact h.elim
  | acquire k ih => exact h.elim
  | release k ih =>
    obtain ⟨a, rfl⟩ := h.of_release
    constructor
    · rintro ⟨hI, -⟩ r hr
      rwa [← Option.some.inj hr]
    · exact fun hr => ⟨hr (s, a) rfl, trivial⟩
  | access f k ih => exact ih s (h s) (f s)
  | call f k ih =>
    constructor
    · intro hk r hr
      obtain ⟨s', hf, hr⟩ := Option.bind_eq_some_iff.1 hr
      exact (ih h s').1 (hk s' hf) r hr
    · intro hr s' hf
      apply (ih h s').2
      intro r hrun
      exact hr r (Option.bind_eq_some_iff.2 ⟨s', hf, hrun⟩)
  | stuck =>
    constructor
    · intro _ r hr
      cases hr
    · exact fun _ => trivial

/-- One critical section, with nothing before it. -/
def Atomic (p : Prog σ α) : Prop := ∃ k, p = .acquire k ∧ k.Section

theorem Atomic.map (f : α → β) (h : p.Atomic) : (p.bind fun a => .ret (f a)).Atomic := by
  obtain ⟨k, rfl, hk⟩ := h
  exact ⟨_, rfl, section_map f hk⟩

theorem Atomic.disciplined (h : p.Atomic) : p.Disciplined false := by
  obtain ⟨k, rfl, hk⟩ := h
  exact ⟨rfl, hk.disciplined⟩

theorem Atomic.guarantees (h : p.Atomic) (hrun : ∀ s, J s → ∀ r, p.run s = some r → I r.1) (s : σ) :
    p.Guarantees J I s := by
  obtain ⟨k, rfl, hk⟩ := h
  rintro t (hJ | ⟨⟨k', rfl⟩, hI⟩)
  · exact (hk.guarantees_iff J I t).2 (hrun t hJ)
  · obtain ⟨a, rfl⟩ := hk.of_release
    exact ⟨hI, trivial⟩

theorem Guarantees.mono {J' : σ → Prop} (hJ : ∀ s, J' s → J s) (h : p.Guarantees J I s) :
    p.Guarantees J' I s := by
  induction p generalizing s with
  | ret a => trivial
  | acquire k ih => exact fun s hs => ih (h s (hs.imp_left (hJ s)))
  | release k ih => exact ⟨h.1, ih h.2⟩
  | access f k ih => exact ih s h
  | call f k ih => exact fun s' hf => ih (h s' hf)
  | stuck => trivial

/-- What a thread without the lock guarantees does not depend on the state. -/
theorem Guarantees.of_free (hd : p.Disciplined false) (h : p.Guarantees J I s) (s' : σ) :
    p.Guarantees J I s' := by
  cases p with
  | ret a => trivial
  | acquire k => exact h
  | release k => exact absurd hd.1 Bool.false_ne_true
  | access f k => exact absurd hd.1 Bool.false_ne_true
  | call f k => exact absurd hd.1 Bool.false_ne_true
  | stuck => trivial

end Prog

-- From here on these go by their rules: unfolding them runs the program.
attribute [irreducible] Prog.Disciplined Prog.Guarantees Prog.Inside Prog.Section

end FwkMlib.Lib
