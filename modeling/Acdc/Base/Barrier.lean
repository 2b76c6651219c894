import Mathlib.Algebra.BigOperators.Group.Finset.Basic
import Mathlib.Algebra.BigOperators.Group.Finset.Piecewise
import Mathlib.Algebra.Order.BigOperators.Group.Finset

/-!
# Rounds of a cyclic barrier

A cyclic barrier for `n` parties lets the parties of a round go once all of them have arrived
in it. The arrivals are counted over all rounds, so that `arrivals / n` rounds are complete.
The number of rounds that a party has entered is the number of complete rounds, or one more
while it waits for the others.
-/

namespace Barrier

/-- Each party has entered the complete rounds, and at most the next one. -/
structure Rounds (n : Nat) (entered : Nat → Nat) (arrivals : Nat) : Prop where
  total : ∑ i ∈ Finset.range n, entered i = arrivals
  ge : ∀ i < n, arrivals / n ≤ entered i
  le : ∀ i < n, entered i ≤ arrivals / n + 1

/-- No party has entered a round before the first arrival. -/
theorem rounds_zero (n : Nat) : Rounds n (fun _ ↦ 0) 0 where
  total := Finset.sum_const_zero
  ge _ _ := Nat.le_of_eq (Nat.zero_div n)
  le _ _ := Nat.zero_le _

private theorem div_le_of_total {n k m : Nat} {f : Nat → Nat}
    (ht : ∑ i ∈ Finset.range n, f i = m) (hb : ∀ i < n, k ≤ f i ∧ f i ≤ k + 1) :
    ∀ i < n, m / n ≤ f i := by
  intro i hi
  apply Nat.le_of_not_lt
  intro hlt
  have hconst : ∑ _i ∈ Finset.range n, (k + 1) = n * (k + 1) := by
    rw [Finset.sum_const, Finset.card_range, Nat.nsmul_eq_mul]
  have hle : ∀ j ∈ Finset.range n, f j ≤ k + 1 := fun j hj ↦ (hb j (Finset.mem_range.mp hj)).2
  have hcap : m / n ≤ k + 1 := by
    apply Nat.div_le_of_le_mul
    rw [← ht, ← hconst]
    exact Finset.sum_le_sum hle
  -- the party that lags behind keeps the total below that of a complete round
  have hsum : m < n * (k + 1) := by
    rw [← ht, ← hconst]
    exact Finset.sum_lt_sum hle ⟨i, Finset.mem_range.mpr hi, by omega⟩
  have hdiv := Nat.div_lt_of_lt_mul hsum
  have hlow := (hb i hi).1
  omega

namespace Rounds

variable {n arrivals : Nat} {entered : Nat → Nat} (h : Rounds n entered arrivals)
include h

/-- The parties are at most one round apart. -/
theorem entered_le {i j : Nat} (hi : i < n) (hj : j < n) : entered i ≤ entered j + 1 :=
  Nat.le_trans (h.le i hi) (Nat.succ_le_succ (h.ge j hj))

/-- A party that waits for nobody is not ahead. -/
theorem entered_le_of_complete {i j : Nat} (hj : j < n) (hc : entered i * n ≤ arrivals) :
    entered i ≤ entered j :=
  Nat.le_trans ((Nat.le_div_iff_mul_le (by omega)).mpr hc) (h.ge j hj)

/-- A round is complete as soon as all parties have entered it. -/
theorem complete_iff {round : Nat} :
    (round + 1) * n ≤ arrivals ↔ ∀ i < n, round < entered i := by
  constructor
  · intro hc i hi
    exact Nat.le_trans ((Nat.le_div_iff_mul_le (by omega)).mpr hc) (h.ge i hi)
  · intro hall
    rw [← h.total, Nat.mul_comm]
    calc n * (round + 1) = ∑ _i ∈ Finset.range n, (round + 1) := by
          rw [Finset.sum_const, Finset.card_range, Nat.nsmul_eq_mul]
      _ ≤ ∑ i ∈ Finset.range n, entered i :=
          Finset.sum_le_sum fun i hi ↦ hall i (Finset.mem_range.mp hi)

/-- A party that waits for nobody enters the first incomplete round. -/
theorem enter {i : Nat} (hi : i < n) (hc : entered i * n ≤ arrivals) :
    arrivals / n = entered i ∧
      Rounds n (Function.update entered i (entered i + 1)) (arrivals + 1) := by
  have he : arrivals / n = entered i :=
    Nat.le_antisymm (h.ge i hi) ((Nat.le_div_iff_mul_le (by omega)).mpr hc)
  have hmono : arrivals / n ≤ (arrivals + 1) / n := Nat.div_le_div_right (Nat.le_succ _)
  have htotal : ∑ j ∈ Finset.range n, Function.update entered i (entered i + 1) j =
      arrivals + 1 := by
    have hmem := Finset.mem_range.mpr hi
    rw [Finset.sum_update_of_mem hmem, ← h.total, ← Finset.add_sum_erase _ _ hmem,
      Finset.sdiff_singleton_eq_erase]
    omega
  have hbounds : ∀ j < n, arrivals / n ≤ Function.update entered i (entered i + 1) j ∧
      Function.update entered i (entered i + 1) j ≤ arrivals / n + 1 := by
    intro j hj
    by_cases hji : j = i
    · subst hji
      rw [Function.update_self]
      omega
    · rw [Function.update_of_ne hji]
      exact ⟨h.ge j hj, h.le j hj⟩
  refine ⟨he, htotal, ?_, fun j hj ↦ ?_⟩
  · exact div_le_of_total htotal fun j hj ↦ hbounds j hj
  · exact Nat.le_trans (hbounds j hj).2 (Nat.succ_le_succ hmono)

end Rounds
end Barrier
