import Acdc.Base.Lehmer
import Acdc.Random

/-!
# The minimal standard generator

`next_rand` of `src/distribution.c:16–23` is the multiplicative generator with the multiplier 16807
and the prime modulus `2 ^ 31 - 1`, by Schrage's decomposition of the modulus into
`16807 * 127773 + 2836`. Every thread has its own state, `src/acdc.c:193`, which is not kept
from being a multiple of the modulus.
-/

namespace Acdc

variable {x y : Int32}

/-- No operation of `next_rand` overflows. -/
structure NextRandFits (rand : Int32) : Prop where
  hi : FitsInt (rand.toInt.tdiv 127773)
  lo : FitsInt (rand.toInt.tmod 127773)
  mulLo : FitsInt (16807 * (rand % 127773).toInt)
  mulHi : FitsInt (2836 * (rand / 127773).toInt)
  difference : FitsInt ((16807 * (rand % 127773)).toInt - (2836 * (rand / 127773)).toInt)
  correction : 16807 * (rand % 127773) - 2836 * (rand / 127773) < 0 →
    FitsInt ((16807 * (rand % 127773) - 2836 * (rand / 127773)).toInt + 2147483647)

/-- In no state does an operation overflow. -/
theorem nextRandFits (x : Int32) : NextRandFits x := by
  have hl := x.le_toInt
  have hu := x.toInt_lt
  obtain ⟨hs, hp, hn⟩ := Truncation.tdiv_tmod_spec x.toInt 127773 (by omega)
  obtain ⟨hhi, hlo, hmulLo, hmulHi⟩ := toInt_operands x
  obtain ⟨hd, hd', hd''⟩ := toInt_difference x
  refine ⟨?_, ?_, ?_, ?_, ?_, ?_⟩
  · constructor <;> omega
  · constructor <;> omega
  · rw [hlo]
    constructor <;> omega
  · rw [hhi]
    constructor <;> omega
  · rw [hmulLo, hmulHi]
    constructor <;> omega
  · intro h
    rw [Int32.lt_iff_toInt_lt, show (0 : Int32).toInt = 0 from rfl] at h
    constructor <;> omega

/-- The states that the generator never leaves. -/
def IsState (x : Int32) : Prop := 1 ≤ x.toInt ∧ x.toInt ≤ 2 ^ 31 - 2

theorem isState_iff : IsState x ↔ x.toInt ∈ Lehmer.residues (2 ^ 31 - 1) := by
  rw [IsState, Lehmer.residues, Set.mem_ofPred_eq]
  omega

/-- `next_rand` is a step of the minimal standard generator. -/
theorem toInt_nextRand (h : 0 ≤ x.toInt) (h' : x.toInt < 2 ^ 31 - 1) :
    (nextRand x).toInt = Lehmer.step 16807 (2 ^ 31 - 1) x.toInt := by
  have hz : (0 : Int32).toInt = 0 := rfl
  have hm : (2147483647 : Int32).toInt = 2147483647 := rfl
  obtain ⟨hd, hd', hd''⟩ := toInt_difference x
  rw [← Lehmer.schrage_eq_step (show (2 ^ 31 - 1 : Int) = 16807 * 127773 + 2836 by norm_num)
    (by omega) (by omega) (by omega) (by omega) h h']
  rw [Int.tmod_eq_emod_of_nonneg h, Int.tdiv_eq_ediv_of_nonneg h] at hd hd' hd''
  simp only [nextRand, Int32.lt_iff_toInt_lt, hz, Lehmer.schrage, hd]
  split
  · rw [Int32.toInt_add, hd, hm]
    exact Int.bmod_eq_of_le (by omega) (by omega)
  · exact hd

private theorem coprime_multiplier : IsCoprime (16807 : Int) (2 ^ 31 - 1) :=
  Int.isCoprime_iff_gcd_eq_one.mpr (by decide)

/-- Runs of `next_rand` are runs of the minimal standard generator among its states. -/
theorem iterate_nextRand (h : IsState x) (k : Nat) :
    (nextRand^[k] x).toInt = (Lehmer.step 16807 (2 ^ 31 - 1))^[k] x.toInt ∧
      IsState (nextRand^[k] x) := by
  induction k with
  | zero => exact ⟨rfl, h⟩
  | succ k ih =>
    obtain ⟨he, hs⟩ := ih
    have hr := isState_iff.mp hs
    have hstep := toInt_nextRand (Int.le_of_lt hr.1) hr.2
    rw [Function.iterate_succ_apply', Function.iterate_succ_apply', ← he]
    refine ⟨hstep, isState_iff.mpr ?_⟩
    rw [hstep]
    exact Lehmer.mapsTo_step coprime_multiplier hr

/-- Threads with different states never meet. -/
theorem nextRand_iterate_ne (hx : IsState x) (hy : IsState y) (hne : y ≠ x) (k : Nat) :
    nextRand^[k] y ≠ nextRand^[k] x := by
  intro h
  apply hne
  apply Int32.toInt_inj.mp
  apply Lehmer.injOn_iterate_step coprime_multiplier k (isState_iff.mp hy) (isState_iff.mp hx)
  rw [← (iterate_nextRand hx k).1, ← (iterate_nextRand hy k).1, h]

/-- After any number of draws the state of a thread is its start state times that power of the
multiplier, no operation overflows, threads that start apart are apart, and a draw from a range
whose length is an `int` lies in it. -/
theorem nextRand_minimalStandard (hx : IsState x) (k : Nat) :
    (nextRand^[k] x).toInt = 16807 ^ k * x.toInt % (2 ^ 31 - 1) ∧ IsState (nextRand^[k] x) ∧
      NextRandFits (nextRand^[k] x) ∧
      (∀ y, IsState y → y ≠ x → nextRand^[k] y ≠ nextRand^[k] x) ∧
      ∀ (g : GOptions) (lo hi : Int32), lo.toInt ≤ hi.toInt →
        hi.toInt - lo.toInt + 1 < 2 ^ 31 →
          ∃ r, getRandIntRange (schrage g) (nextRand^[k] x) lo hi =
            .ok (r, nextRand^[k + 1] x) ∧ lo.toInt ≤ r.toInt ∧ r.toInt ≤ hi.toInt := by
  obtain ⟨he, hs⟩ := iterate_nextRand hx k
  refine ⟨?_, hs, nextRandFits _, fun y hy hne ↦ nextRand_iterate_ne hx hy hne k, ?_⟩
  · rw [he, Lehmer.iterate_step (isState_iff.mp hx)]
  · intro g lo hi hle hr
    obtain ⟨r, hd, -⟩ := getRandIntRange_eq_ok (schrage g) (nextRand^[k] x) hle (by omega)
    refine ⟨r, ?_, getRandIntRange_bounds (schrage g) hd (by omega)⟩
    rw [Function.iterate_succ_apply']
    exact hd

/-- Two draws from the state 1. -/
theorem nextRand_minimalStandard_one :
    (nextRand^[2] 1).toInt = 282475249 ∧ nextRand^[2] 2 ≠ nextRand^[2] 1 := by
  have h := nextRand_minimalStandard (show IsState 1 from ⟨by decide, by decide⟩) 2
  exact ⟨h.1.trans (by decide), h.2.2.2.1 2 ⟨by decide, by decide⟩ (by decide)⟩

/-! ### Degenerate states -/

/-- Outside of the range of its states, `next_rand` is a step of the generator as well. -/
theorem toInt_nextRand_int (x : Int32) :
    (nextRand x).toInt = Lehmer.step 16807 (2 ^ 31 - 1) x.toInt := by
  by_cases h : 0 ≤ x.toInt ∧ x.toInt < 2 ^ 31 - 1
  · exact toInt_nextRand h.1 h.2
  · have hl := x.le_toInt
    have hu := x.toInt_lt
    have hz : (0 : Int32).toInt = 0 := rfl
    have hm : (2147483647 : Int32).toInt = 2147483647 := rfl
    obtain ⟨hs, hp, hn⟩ := Truncation.tdiv_tmod_spec x.toInt 127773 (by omega)
    obtain ⟨hd, hd', hd''⟩ := toInt_difference x
    simp only [nextRand, Int32.lt_iff_toInt_lt, hz, Lehmer.step]
    split
    · rw [Int32.toInt_add, hm, Int.bmod_eq_of_le (by omega) (by omega)]
      omega
    · omega

/-- Only multiples of the modulus lead to the state 0, the others to a state of the generator. -/
theorem isState_nextRand_iff (x : Int32) :
    IsState (nextRand x) ↔ ¬ (2 ^ 31 - 1 : Int) ∣ x.toInt := by
  have hdvd : (2 ^ 31 - 1 : Int) ∣ 16807 * x.toInt ↔ (2 ^ 31 - 1 : Int) ∣ x.toInt :=
    ⟨coprime_multiplier.symm.dvd_of_dvd_mul_left, fun h ↦ h.mul_left 16807⟩
  rw [← hdvd, Int.dvd_iff_emod_eq_zero, IsState, toInt_nextRand_int, Lehmer.step]
  omega

/-- From the state 0 every draw returns the lower end of its range. -/
theorem getRandIntRange_zero_state (g : GOptions) {lo hi : Int32} (h : lo.toInt ≤ hi.toInt)
    (hr : hi.toInt - lo.toInt < 2 ^ 31 - 1) :
    getRandIntRange (schrage g) 0 lo hi = .ok (lo, 0) := by
  have hz : (schrage g).next 0 = 0 := show nextRand 0 = 0 by decide
  obtain ⟨r, hd, hv⟩ := getRandIntRange_eq_ok (schrage g) 0 h hr
  rw [hz] at hd hv
  have hv0 : r.toInt = lo.toInt := by
    rw [hv, show ((schrage g).rand 0).toInt = 0 from rfl, Int.zero_emod, Int.add_zero]
  rw [hd, Int32.toInt_inj.mp hv0]

/-- The stream of a thread stays out of the state 0 if and only if the sum of the seed and its
number is no multiple of the modulus. -/
theorem stream_ne_zero_iff (g : GOptions) (i : Nat) (hfit : FitsInt (g.seed.toInt + i)) :
    (∀ k, 1 ≤ k → nextRand^[k] ((schrage g).seed i) ≠ 0) ↔
      ¬ (2 ^ 31 - 1 : Int) ∣ g.seed.toInt + i := by
  have hseed : ((schrage g).seed i).toInt = g.seed.toInt + i := by
    show (g.seed + Int32.ofNat i).toInt = _
    have hlo := hfit.1
    have hhi := hfit.2
    rw [Int32.toInt_add, Int32.toInt_ofNat', show Int32.size = 2 ^ 32 from rfl,
      Int.add_bmod_bmod]
    exact Int.bmod_eq_of_le (by omega) (by omega)
  rw [← hseed, ← isState_nextRand_iff]
  constructor
  · intro h
    have h1 := h 1 le_rfl
    rw [isState_nextRand_iff]
    intro hd
    apply h1
    apply Int32.toInt_inj.mp
    rw [Function.iterate_one, toInt_nextRand_int]
    exact Int.emod_eq_zero_of_dvd (hd.mul_left 16807)
  · intro h k hk hz
    obtain ⟨j, rfl⟩ := Nat.exists_eq_add_of_le' hk
    have hs := (iterate_nextRand h j).2
    rw [← Function.iterate_succ_apply, hz] at hs
    exact absurd hs.1 (by decide)

/-- The default seed in thread 3. -/
theorem stream_ne_zero_iff_three :
    FitsInt (GOptions.setDefaultParams.seed.toInt + (3 : Nat)) ∧
    ∀ k, 1 ≤ k → nextRand^[k] ((schrage GOptions.setDefaultParams).seed 3) ≠ 0 := by
  have hfit : FitsInt (GOptions.setDefaultParams.seed.toInt + (3 : Nat)) := ⟨by decide, by decide⟩
  exact ⟨hfit, (stream_ne_zero_iff GOptions.setDefaultParams 3 hfit).mpr (by decide)⟩

/-- The seed 0 leaves thread 0 in the state 0. -/
theorem not_forall_stream_ne_zero :
    ¬ ∀ (g : GOptions) (i : Nat), i < g.threads → FitsInt (g.seed.toInt + i) →
      ∀ k, 1 ≤ k → nextRand^[k] ((schrage g).seed i) ≠ 0 := by
  intro h
  apply h { GOptions.setDefaultParams with seed := 0 } 0 (by decide) ⟨by decide, by decide⟩ 1
    le_rfl
  decide

end Acdc
