import Mathlib.Data.List.Nodup

/-!
# Ordered finite maps of bounded size

`OrdMap κ ν cap` is a finite map from `κ` to `ν` with at most `cap` entries that remembers the order
of insertion. Its three updates are partial: `insert?` refuses a present key and a full map, `modify?`
and `erase?` refuse an absent key.
-/

namespace FwkMlib.Lib

/-- At most `cap` entries with distinct keys, in insertion order. -/
@[ext] structure OrdMap (κ ν : Type*) (cap : Nat) where
  entries : List (κ × ν)
  nodup : (entries.map Prod.fst).Nodup
  length_le : entries.length ≤ cap

namespace OrdMap

variable {κ ν : Type*} {cap : Nat}

def empty : OrdMap κ ν cap := ⟨[], List.nodup_nil, Nat.zero_le _⟩

def keys (m : OrdMap κ ν cap) : List κ := m.entries.map Prod.fst

variable [DecidableEq κ]

def insert? (m : OrdMap κ ν cap) (k : κ) (v : ν) : Option (OrdMap κ ν cap) :=
  if h : k ∉ m.keys ∧ m.entries.length < cap then
    some ⟨m.entries ++ [(k, v)], by
      rw [List.map_append]
      exact List.nodup_append_comm.1 (List.nodup_cons.2 ⟨h.1, m.nodup⟩), by
      rw [List.length_append]
      exact h.2⟩
  else none

/-- The value of one entry replaced when its key is `k`. -/
def replace (k : κ) (v : ν) (e : κ × ν) : κ × ν := if e.1 = k then (k, v) else e

theorem fst_replace (k : κ) (v : ν) (e : κ × ν) : (replace k v e).1 = e.1 := by
  unfold replace
  split
  · next h => exact h.symm
  · rfl

/-- Replace the value of a present key. -/
def modify? (m : OrdMap κ ν cap) (k : κ) (v : ν) : Option (OrdMap κ ν cap) :=
  if k ∈ m.keys then
    some ⟨m.entries.map (replace k v), by
      rw [List.map_map, show Prod.fst ∘ replace k v = (Prod.fst : κ × ν → κ) from
        funext (fst_replace k v)]
      exact m.nodup, by simpa using m.length_le⟩
  else none

/-- Remove a present key, keeping the order of the others. -/
def erase? (m : OrdMap κ ν cap) (k : κ) : Option (OrdMap κ ν cap) :=
  if k ∈ m.keys then
    some ⟨m.entries.filter (fun e => e.1 ≠ k), m.nodup.sublist (List.filter_sublist.map _),
      Nat.le_trans (List.length_filter_le _ _) m.length_le⟩
  else none

theorem insert?_eq_some {m m' : OrdMap κ ν cap} {k : κ} {v : ν} :
    m.insert? k v = some m' ↔
      k ∉ m.keys ∧ m.entries.length < cap ∧ m'.entries = m.entries ++ [(k, v)] := by
  unfold insert?
  split
  · next h => simp [OrdMap.ext_iff, h.1, h.2, eq_comm]
  · next h => simp only [reduceCtorEq, false_iff]; rintro ⟨h₁, h₂, -⟩; exact h ⟨h₁, h₂⟩

theorem modify?_eq_some {m m' : OrdMap κ ν cap} {k : κ} {v : ν} :
    m.modify? k v = some m' ↔ k ∈ m.keys ∧ m'.entries = m.entries.map (replace k v) := by
  unfold modify?
  split <;> simp [*, OrdMap.ext_iff, eq_comm]

theorem erase?_eq_some {m m' : OrdMap κ ν cap} {k : κ} :
    m.erase? k = some m' ↔ k ∈ m.keys ∧ m'.entries = m.entries.filter (fun e => e.1 ≠ k) := by
  unfold erase?
  split <;> simp [*, OrdMap.ext_iff, eq_comm]

theorem isSome_insert? {m : OrdMap κ ν cap} {k : κ} {v : ν} :
    (m.insert? k v).isSome ↔ k ∉ m.keys ∧ m.entries.length < cap := by
  unfold insert?
  split <;> simp [*]

theorem isSome_modify? {m : OrdMap κ ν cap} {k : κ} {v : ν} :
    (m.modify? k v).isSome ↔ k ∈ m.keys := by
  unfold modify?
  split <;> simp [*]

theorem isSome_erase? {m : OrdMap κ ν cap} {k : κ} : (m.erase? k).isSome ↔ k ∈ m.keys := by
  unfold erase?
  split <;> simp [*]

/-! ## Maps that differ in their order only -/

/-- The same entries, in some order. -/
def Same (m n : OrdMap κ ν cap) : Prop := m.entries.Perm n.entries

variable {m n : OrdMap κ ν cap}

omit [DecidableEq κ] in
theorem Same.mem_keys (h : Same m n) {k : κ} : k ∈ m.keys ↔ k ∈ n.keys :=
  (List.Perm.map Prod.fst h).mem_iff

theorem Same.insert? (h : Same m n) (k : κ) (v : ν) :
    Option.Rel Same (m.insert? k v) (n.insert? k v) := by
  have hiff : (k ∉ m.keys ∧ m.entries.length < cap) ↔ (k ∉ n.keys ∧ n.entries.length < cap) := by
    rw [h.mem_keys, List.Perm.length_eq h]
  unfold OrdMap.insert?
  by_cases hm : k ∉ m.keys ∧ m.entries.length < cap
  · rw [dif_pos hm, dif_pos (hiff.1 hm)]
    exact .some (List.Perm.append_right [(k, v)] h)
  · rw [dif_neg hm, dif_neg fun hn => hm (hiff.2 hn)]
    exact .none

theorem Same.modify? (h : Same m n) (k : κ) (v : ν) :
    Option.Rel Same (m.modify? k v) (n.modify? k v) := by
  unfold OrdMap.modify?
  by_cases hm : k ∈ m.keys
  · rw [if_pos hm, if_pos (h.mem_keys.1 hm)]
    exact .some (List.Perm.map (replace k v) h)
  · rw [if_neg hm, if_neg fun hn => hm (h.mem_keys.2 hn)]
    exact .none

theorem Same.erase? (h : Same m n) (k : κ) : Option.Rel Same (m.erase? k) (n.erase? k) := by
  unfold OrdMap.erase?
  by_cases hm : k ∈ m.keys
  · rw [if_pos hm, if_pos (h.mem_keys.1 hm)]
    exact .some (List.Perm.filter _ h)
  · rw [if_neg hm, if_neg fun hn => hm (h.mem_keys.2 hn)]
    exact .none

end OrdMap

end FwkMlib.Lib
