import Mathlib.Data.Int.GCD
import Mathlib.Data.Nat.ModEq
import Mathlib.Dynamics.PeriodicPts.Defs

/-!
# Walking round a cycle

Steps of `d` places round a cycle of `c` places, from place 0.

* `mul_mod_add_gcd_le` : the place reached never comes closer to the end than `gcd d c`;
* `exists_mul_mod_add_gcd` : it comes as close as that;
* `hop` : a step of `m` places taken modulo `n` and then modulo `t`; place 0 is always come back to
  (`zero_mem_periodicPts_hop`), although such steps need not be injective.
-/

namespace FwkMlib.Lib

theorem mul_mod_add_gcd_le {c : Nat} (hc : 0 < c) (d k : Nat) : k * d % c + Nat.gcd d c ≤ c := by
  obtain ⟨e, he⟩ := Nat.gcd_dvd_right d c
  have hdvd : Nat.gcd d c ∣ k * d % c :=
    (Nat.dvd_mod_iff (Nat.gcd_dvd_right d c)).2 ((Nat.gcd_dvd_left d c).mul_left k)
  obtain ⟨j, hj⟩ := hdvd
  have hlt : Nat.gcd d c * j < Nat.gcd d c * e := by
    rw [← hj, ← he]
    exact Nat.mod_lt _ hc
  have hje : j + 1 ≤ e := Nat.lt_of_mul_lt_mul_left hlt
  calc k * d % c + Nat.gcd d c = Nat.gcd d c * (j + 1) := by rw [hj, Nat.mul_succ]
    _ ≤ Nat.gcd d c * e := Nat.mul_le_mul_left _ hje
    _ = c := he.symm

theorem exists_mul_mod_add_gcd {c d : Nat} (hc : 0 < c) (hd : ¬ c ∣ d) :
    ∃ k, k * d % c + Nat.gcd d c = c := by
  have hg : Nat.gcd d c < c := by
    refine lt_of_le_of_ne (Nat.gcd_le_right d hc) fun he => hd ?_
    rw [← he]
    exact Nat.gcd_dvd_left d c
  obtain ⟨m, -, hm⟩ := Nat.exists_mul_mod_eq_gcd hg
  obtain ⟨e, he⟩ := Nat.gcd_dvd_right d c
  have hpos : 0 < Nat.gcd d c := Nat.gcd_pos_of_pos_right d hc
  have he₀ : 0 < e := Nat.pos_of_ne_zero fun h₀ => by
    rw [h₀, Nat.mul_zero] at he
    omega
  have hlast : Nat.gcd d c * (e - 1) + Nat.gcd d c = c := by
    rw [← Nat.mul_succ, Nat.succ_eq_add_one, Nat.sub_add_cancel he₀, ← he]
  refine ⟨m * (e - 1), ?_⟩
  have hstep : d * m ≡ Nat.gcd d c [MOD c] := by rw [Nat.ModEq, hm, Nat.mod_eq_of_lt hg]
  have hmod : m * (e - 1) * d % c = Nat.gcd d c * (e - 1) := by
    have hlt : Nat.gcd d c * (e - 1) < c := by omega
    have h := hstep.mul_right (e - 1)
    rw [Nat.ModEq, Nat.mod_eq_of_lt hlt] at h
    rw [← h, Nat.mul_comm (m * (e - 1)), Nat.mul_assoc]
  rw [hmod, hlast]

/-! ## Steps with two moduli -/

/-- The place after `x` where sums wrap at `n` and places at `t`. -/
def hop (n m t x : Nat) : Nat := (x + m) % n % t

theorem hop_lt {n m t : Nat} (ht : 0 < t) (x : Nat) : hop n m t x < t := Nat.mod_lt _ ht

/-- Where one modulus never matters, the places are the multiples of `m`. -/
theorem iterate_hop {n m t c : Nat} (h : ∀ x < c, hop n m t x = (x + m) % c) (hc : 0 < c) (k : Nat) :
    (hop n m t)^[k] 0 = k * m % c := by
  induction k with
  | zero => rw [Function.iterate_zero_apply, Nat.zero_mul, Nat.zero_mod]
  | succ k ih =>
    rw [Function.iterate_succ_apply', ih, h _ (Nat.mod_lt _ hc), Nat.mod_add_mod, Nat.succ_mul]

section wrapping

variable {n m t : Nat} (hm : m < n) (htn : t < n)

include hm htn

/-- The places whose sums wrap are left in steps of `n - m` towards 0. -/
theorem exists_iterate_hop_mod {w : Nat} (hw : w < t) :
    ∃ j, (hop n m t)^[j] w = w % (n - m) := by
  induction w using Nat.strong_induction_on with
  | _ w ih =>
    by_cases hlt : w < n - m
    · exact ⟨0, (Nat.mod_eq_of_lt hlt).symm⟩
    · have hstep : hop n m t w = w - (n - m) := by
        have hsum : w + m = w - (n - m) + n := by omega
        rw [hop, hsum, Nat.add_mod_right, Nat.mod_eq_of_lt (by omega : w - (n - m) < n),
          Nat.mod_eq_of_lt (by omega : w - (n - m) < t)]
      obtain ⟨j, hj⟩ := ih (w - (n - m)) (by omega) (by omega)
      refine ⟨j + 1, ?_⟩
      rw [Function.iterate_succ_apply, hstep, hj, ← Nat.mod_eq_sub_mod (Nat.le_of_not_lt hlt)]

/-- Seen from the places whose sums do not wrap, the steps are those with the moduli `t` and
`n - m`. -/
theorem exists_iterate_hop_hop (ht : 0 < t) {x : Nat} (hx : x < n - m) :
    ∃ j, 0 < j ∧ (hop n m t)^[j] x = hop t m (n - m) x := by
  have hstep : hop n m t x = (x + m) % t := by
    rw [hop, Nat.mod_eq_of_lt (by omega : x + m < n)]
  obtain ⟨j, hj⟩ := exists_iterate_hop_mod hm htn (Nat.mod_lt (x + m) ht)
  refine ⟨j + 1, Nat.succ_pos j, ?_⟩
  rw [Function.iterate_succ_apply, hstep, hj]
  rfl

theorem exists_iterate_hop (ht : 0 < t) (k : Nat) :
    ∃ j, k ≤ j ∧ (hop n m t)^[j] 0 = (hop t m (n - m))^[k] 0 := by
  induction k with
  | zero => exact ⟨0, le_rfl, rfl⟩
  | succ k ih =>
    obtain ⟨j, hkj, hj⟩ := ih
    have hc : 0 < n - m := Nat.sub_pos_of_lt hm
    have hlt : (hop t m (n - m))^[k] 0 < n - m := by
      cases k with
      | zero => exact hc
      | succ k =>
        rw [Function.iterate_succ_apply']
        exact hop_lt hc _
    obtain ⟨i, hi, hstep⟩ := exists_iterate_hop_hop hm htn ht hlt
    refine ⟨i + j, by omega, ?_⟩
    rw [Function.iterate_add_apply, hj, hstep, Function.iterate_succ_apply']

end wrapping

/-- **Place 0 is come back to**, by Euclid's algorithm: the steps that start below `n - m` are again
steps with two moduli, of which the larger is now `t`. -/
theorem exists_iterate_hop_eq_zero (m : Nat) {n t : Nat} (hn : 0 < n) (ht : 0 < t) :
    ∃ k, 0 < k ∧ (hop n m t)^[k] 0 = 0 := by
  induction n using Nat.strong_induction_on generalizing m t with
  | _ n ih =>
    have hred : hop n m t = hop n (m % n) t := by
      funext x
      rw [hop, hop, Nat.add_mod_mod]
    have hm : m % n < n := Nat.mod_lt m hn
    rw [hred]
    by_cases htn : t < n
    · by_cases hwrap : n < m % n + t
      · obtain ⟨k, hk, h0⟩ := ih t htn (m % n) ht (Nat.sub_pos_of_lt hm)
        obtain ⟨j, hkj, hj⟩ := exists_iterate_hop hm htn ht k
        exact ⟨j, by omega, hj.trans h0⟩
      · refine ⟨t, ht, ?_⟩
        rw [iterate_hop (c := t) (fun x hx => ?_) ht, Nat.mul_mod_right]
        rw [hop, Nat.mod_eq_of_lt (by omega : x + m % n < n)]
    · refine ⟨n, hn, ?_⟩
      rw [iterate_hop (c := n) (fun x hx => ?_) hn, Nat.mul_mod_right]
      have hlt : (x + m % n) % n < n := Nat.mod_lt _ hn
      rw [hop, Nat.mod_eq_of_lt (by omega : (x + m % n) % n < t)]

theorem zero_mem_periodicPts_hop (m : Nat) {n t : Nat} (hn : 0 < n) (ht : 0 < t) :
    0 ∈ Function.periodicPts (hop n m t) := by
  obtain ⟨k, hk, h0⟩ := exists_iterate_hop_eq_zero m hn ht
  exact Function.mk_mem_periodicPts hk h0

/-- Places less than a period apart differ. -/
theorem iterate_hop_inj {n m t a b : Nat} (hn : 0 < n) (ht : 0 < t) (hba : b ≤ a)
    (hlt : a - b < Function.minimalPeriod (hop n m t) 0)
    (h : (hop n m t)^[a] 0 = (hop n m t)^[b] 0) : a = b := by
  have hperiod := Function.minimalPeriod_apply_iterate (zero_mem_periodicPts_hop m hn ht) b
  have hback : (hop n m t)^[a - b] ((hop n m t)^[b] 0) = (hop n m t)^[b] 0 := by
    rw [← Function.iterate_add_apply, Nat.sub_add_cancel hba, h]
  by_contra hne
  rw [← hperiod] at hlt
  exact Function.not_isPeriodicPt_of_pos_of_lt_minimalPeriod (by omega) hlt hback

end FwkMlib.Lib
