import Mathlib.Data.Int.ModEq
import Mathlib.Data.Set.Function
import Mathlib.RingTheory.Coprime.Lemmas
import Mathlib.Tactic.Ring

/-!
# Multiplicative congruential generators

A generator that multiplies its state by `a` modulo `m`. With a multiplier coprime to the modulus
it stays among the nonzero residues and never merges two of them. Schrage's decomposition of the
modulus computes a step without the full product.
-/

namespace Lehmer

variable {a m q r x y : Int}

/-- The next state. -/
def step (a m x : Int) : Int := a * x % m

/-- The nonzero residues. -/
def residues (m : Int) : Set Int := {x | 0 < x ∧ x < m}

/-- After `k` steps the state is multiplied by the power of the multiplier. -/
theorem iterate_step (hx : x ∈ residues m) (k : Nat) : (step a m)^[k] x = a ^ k * x % m := by
  induction k with
  | zero =>
    rw [pow_zero, one_mul, Int.emod_eq_of_lt (Int.le_of_lt hx.1) hx.2]
    rfl
  | succ k ih =>
    rw [Function.iterate_succ_apply', ih, pow_succ', mul_assoc]
    exact (Int.mod_modEq (a ^ k * x) m).mul_left a

/-- The nonzero residues are kept. -/
theorem mapsTo_step (ha : IsCoprime a m) : Set.MapsTo (step a m) (residues m) (residues m) := by
  intro x hx
  have hm : 0 < m := hx.1.trans hx.2
  constructor
  · apply lt_of_le_of_ne (Int.emod_nonneg _ hm.ne')
    intro h
    have hd : m ∣ x := ha.symm.dvd_of_dvd_mul_left (Int.dvd_of_emod_eq_zero h.symm)
    exact absurd (Int.le_of_dvd hx.1 hd) (not_le.mpr hx.2)
  · exact Int.emod_lt_of_pos _ hm

/-- Different residues stay different. -/
theorem injOn_step (ha : IsCoprime a m) : Set.InjOn (step a m) (residues m) := by
  intro x hx y hy h
  have hd : m ∣ a * (y - x) := by
    rw [mul_sub]
    exact Int.ModEq.dvd h
  have hmod : x ≡ y [ZMOD m] := Int.modEq_iff_dvd.mpr (ha.symm.dvd_of_dvd_mul_left hd)
  rwa [Int.ModEq, Int.emod_eq_of_lt hx.1.le hx.2, Int.emod_eq_of_lt hy.1.le hy.2] at hmod

/-- Different residues never meet. -/
theorem injOn_iterate_step (ha : IsCoprime a m) (k : Nat) :
    Set.InjOn (step a m)^[k] (residues m) :=
  (injOn_step ha).iterate (mapsTo_step ha) k

/-! ### Schrage's method -/

/-- A step of the generator for a modulus `a * q + r`. -/
def schrage (a q r m x : Int) : Int :=
  let d := a * (x % q) - r * (x / q)
  if d < 0 then d + m else d

/-- The product is Schrage's difference but for a multiple of the modulus. -/
theorem mul_eq_difference (hm : m = a * q + r) (x : Int) :
    a * x = a * (x % q) - r * (x / q) + m * (x / q) := by
  calc a * x = a * (q * (x / q) + x % q) := by rw [Int.mul_ediv_add_emod]
    _ = a * (x % q) - r * (x / q) + m * (x / q) := by rw [hm]; ring

/-- The difference is above the negated modulus and below the modulus. -/
theorem difference_bounds (hm : m = a * q + r) (ha : 0 < a) (hq : 0 < q) (hr : 0 ≤ r)
    (hrq : r ≤ q) (hx : 0 ≤ x) (hxm : x < m) :
    -m < a * (x % q) - r * (x / q) ∧ a * (x % q) - r * (x / q) < m := by
  have hlo := Int.emod_nonneg x hq.ne'
  have hlt : x % q ≤ q - 1 := Int.le_sub_one_of_lt (Int.emod_lt_of_pos x hq)
  have hquot := Int.ediv_nonneg hx hq.le
  have hx' := Int.mul_ediv_add_emod x q
  have hleft : 0 ≤ a * (x % q) := Int.mul_nonneg ha.le hlo
  have hleft' : a * (x % q) ≤ a * (q - 1) := Int.mul_le_mul_of_nonneg_left hlt ha.le
  have hright : 0 ≤ r * (x / q) := Int.mul_nonneg hr hquot
  have hright' : r * (x / q) ≤ q * (x / q) := Int.mul_le_mul_of_nonneg_right hrq hquot
  rw [Int.mul_sub, Int.mul_one] at hleft'
  omega

/-- Schrage's method computes the step. -/
theorem schrage_eq_step (hm : m = a * q + r) (ha : 0 < a) (hq : 0 < q) (hr : 0 ≤ r)
    (hrq : r ≤ q) (hx : 0 ≤ x) (hxm : x < m) : schrage a q r m x = step a m x := by
  obtain ⟨hlo, hhi⟩ := difference_bounds hm ha hq hr hrq hx hxm
  rw [step, mul_eq_difference hm, Int.add_mul_emod_self_left, schrage]
  generalize a * (x % q) - r * (x / q) = d at hlo hhi ⊢
  split
  · rw [← Int.add_emod_right d m, Int.emod_eq_of_lt (by omega) (by omega)]
  · rw [Int.emod_eq_of_lt (by omega) hhi]

end Lehmer
