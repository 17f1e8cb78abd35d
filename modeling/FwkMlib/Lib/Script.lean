import Mathlib.Logic.Basic
import Mathlib.Tactic.Common

/-!
# Programs that call a system

`Script` is a program whose actions are calls, each with an answer that the program goes on with.
`System` says when a call may be made, what it may answer in a state, and the state it leaves.

* `Script.Runs` : one run of a program, with the calls it made and their answers;
* `Script.wp` : every call of every run is made when it may be, and every result is as asked for;
  `Script.wp_iff` says it of the runs;
* `wp_bind`, `wp_mono` : the rules for a sequence and for what follows from a result;
* `System.only` : a system that answers as `P` allows only.
-/

namespace FwkMlib.Lib

/-- The calls `C` answer in `A c`. -/
inductive Script (C : Type) (A : C → Type) (α : Type) : Type
  | ret (a : α)
  | call (c : C) (k : A c → Script C A α)

/-- When a call may be made, and what it may answer and leave behind. -/
structure System (C : Type) (A : C → Type) (σ : Type) where
  pre : C → σ → Prop
  answers : (c : C) → σ → A c → σ → Prop

variable {C : Type} {A : C → Type} {σ α β : Type}

/-- A call that was made, with its answer. -/
abbrev Event (A : C → Type) := (c : C) × A c

namespace Script

def bind : Script C A α → (α → Script C A β) → Script C A β
  | .ret a, f => f a
  | .call c k, f => .call c fun x => (k x).bind f

/-- The program that makes one call. -/
def ask (c : C) : Script C A (A c) := .call c .ret

instance : Monad (Script C A) where
  pure := .ret
  bind := .bind

@[simp] theorem pure_eq (a : α) : (pure a : Script C A α) = .ret a := rfl

@[simp] theorem bind_eq (p : Script C A α) (f : α → Script C A β) : p >>= f = p.bind f := rfl

@[simp] theorem ret_bind (a : α) (f : α → Script C A β) : (ret a : Script C A α).bind f = f a := rfl

@[simp] theorem ask_bind (c : C) (f : A c → Script C A β) : (ask c).bind f = .call c f := rfl

theorem bind_assoc {γ : Type} (p : Script C A α) (f : α → Script C A β) (g : β → Script C A γ) :
    (p.bind f).bind g = p.bind fun a => (f a).bind g := by
  induction p with
  | ret a => rfl
  | call c k ih => exact congrArg (Script.call c) (funext ih)

/-- The runs of a program in a system. -/
inductive Runs (S : System C A σ) : Script C A α → σ → List (Event A) → α → σ → Prop
  | ret (a : α) (s : σ) : Runs S (.ret a) s [] a s
  | call {c : C} {k : A c → Script C A α} {s s' t : σ} {x : A c} {log : List (Event A)} {a : α}
    (hx : S.answers c s x s') (hk : Runs S (k x) s' log a t) : Runs S (.call c k) s (⟨c, x⟩ :: log) a t

/-- Each call that the program comes to may be made there. -/
def Lawful (S : System C A σ) : Script C A α → σ → Prop
  | .ret _, _ => True
  | .call c k, s => S.pre c s ∧ ∀ x s', S.answers c s x s' → (k x).Lawful S s'

/-- What the state has to satisfy for every run to end as `Q` asks. -/
def wp (S : System C A σ) : Script C A α → (α → σ → Prop) → σ → Prop
  | .ret a, Q, s => Q a s
  | .call c k, Q, s => S.pre c s ∧ ∀ x s', S.answers c s x s' → (k x).wp S Q s'

variable {S : System C A σ} {p : Script C A α} {Q Q' : α → σ → Prop} {s s' : σ}

@[simp] theorem wp_ret (a : α) : (ret a : Script C A α).wp S Q s ↔ Q a s := Iff.rfl

@[simp] theorem wp_call (c : C) (k : A c → Script C A α) :
    (call c k).wp S Q s ↔ S.pre c s ∧ ∀ x s', S.answers c s x s' → (k x).wp S Q s' := Iff.rfl

@[simp] theorem wp_ite {P : Prop} [Decidable P] {q : Script C A α} :
    (if P then p else q).wp S Q s ↔ (P → p.wp S Q s) ∧ (¬ P → q.wp S Q s) := by
  split_ifs with h <;> simp [h]

theorem wp_mono (hQ : ∀ a s, Q a s → Q' a s) (h : p.wp S Q s) : p.wp S Q' s := by
  induction p generalizing s with
  | ret a => exact hQ a s h
  | call c k ih => exact ⟨h.1, fun x s' hx => ih x (h.2 x s' hx)⟩

@[simp] theorem wp_bind (p : Script C A α) (f : α → Script C A β) {Q : β → σ → Prop} :
    (p.bind f).wp S Q s ↔ p.wp S (fun a s => (f a).wp S Q s) s := by
  induction p generalizing s with
  | ret a => exact Iff.rfl
  | call c k ih =>
    apply and_congr_right'
    apply forall₃_congr
    exact fun x s' _ => ih x

/-- A program whose runs end as `Q` asks, in front of another one. -/
theorem wp_seq {f : α → Script C A β} {R : β → σ → Prop} (h : p.wp S Q s)
    (hf : ∀ a s, Q a s → (f a).wp S R s) : (p.bind f).wp S R s :=
  (wp_bind p f).2 (wp_mono hf h)

theorem wp_and (h : p.wp S Q s) (h' : p.wp S Q' s) : p.wp S (fun a s => Q a s ∧ Q' a s) s := by
  induction p generalizing s with
  | ret a => exact ⟨h, h'⟩
  | call c k ih => exact ⟨h.1, fun x s' hx => ih x (h.2 x s' hx) (h'.2 x s' hx)⟩

/-- **The meaning of `wp`**, said of the runs. -/
theorem wp_iff : p.wp S Q s ↔ p.Lawful S s ∧ ∀ log a s', Runs S p s log a s' → Q a s' := by
  induction p generalizing s with
  | ret a =>
    constructor
    · intro h
      refine ⟨trivial, fun log b s' hr => ?_⟩
      cases hr
      exact h
    · exact fun h => h.2 [] a s (.ret a s)
  | call c k ih =>
    constructor
    · rintro ⟨hpre, h⟩
      refine ⟨⟨hpre, fun x s' hx => ((ih x).1 (h x s' hx)).1⟩, fun log a t hr => ?_⟩
      cases hr with
      | call hx hk => exact ((ih _).1 (h _ _ hx)).2 _ _ _ hk
    · rintro ⟨⟨hpre, hlaw⟩, h⟩
      refine ⟨hpre, fun x s' hx => (ih x).2 ⟨hlaw x s' hx, fun log a t hk => ?_⟩⟩
      exact h _ a t (.call hx hk)

end Script

namespace System

/-- The system, as long as its answers are among `P`. -/
def only (S : System C A σ) (P : (c : C) → A c → Prop) : System C A σ where
  pre := S.pre
  answers c s x s' := S.answers c s x s' ∧ P c x

variable {S : System C A σ} {p : Script C A α} {Q : α → σ → Prop} {s : σ}

@[simp] theorem pre_only {P : (c : C) → A c → Prop} {c : C} : (S.only P).pre c s ↔ S.pre c s := Iff.rfl

@[simp] theorem answers_only {P : (c : C) → A c → Prop} {c : C} {x : A c} {s' : σ} :
    (S.only P).answers c s x s' ↔ S.answers c s x s' ∧ P c x := Iff.rfl

theorem only_true (S : System C A σ) : S.only (fun _ _ => True) = S := by
  unfold only
  simp only [and_true]

end System

end FwkMlib.Lib
