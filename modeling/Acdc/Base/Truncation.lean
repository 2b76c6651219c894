import Mathlib.Algebra.BigOperators.Group.List.Basic
import Mathlib.Algebra.Ring.Int.Defs

/-!
# Truncated quotients and means

Integer division that rounds toward zero, of numbers and of sums of samples. A mean of all
samples and the mean of some of them agree as far as the others fall short of the latter.
-/

namespace Truncation

/-- Truncating division splits a number into a multiple and a remainder of its sign. -/
theorem tdiv_tmod_spec (x c : Int) (hc : 0 < c) :
    c * x.tdiv c + x.tmod c = x ∧
      (0 ≤ x → 0 ≤ x.tmod c ∧ x.tmod c < c) ∧ (x < 0 → -c < x.tmod c ∧ x.tmod c ≤ 0) := by
  refine ⟨Int.mul_tdiv_add_tmod x c, fun hx ↦ ?_, fun hx ↦ ?_⟩
  · exact ⟨Int.tmod_nonneg c hx, Int.tmod_lt_of_pos x hc⟩
  · have hn := Int.tmod_nonneg c (show 0 ≤ -x by omega)
    have hl := Int.tmod_lt_of_pos (-x) hc
    rw [Int.neg_tmod] at hn hl
    omega

/-- A truncated quotient lies between zero and the dividend. -/
theorem tdiv_bounds (x : Int) {c : Int} (hc : 0 ≤ c) :
    (0 ≤ x → 0 ≤ x.tdiv c ∧ x.tdiv c ≤ x) ∧ (x ≤ 0 → x ≤ x.tdiv c ∧ x.tdiv c ≤ 0) := by
  refine ⟨fun hx ↦ ⟨Int.tdiv_nonneg hx hc, Int.tdiv_le_self c hx⟩, fun hx ↦ ?_⟩
  have hn := Int.tdiv_nonneg (show 0 ≤ -x by omega) hc
  have hl := Int.tdiv_le_self c (show 0 ≤ -x by omega)
  rw [Int.neg_tdiv] at hn hl
  omega

/-- What rounding toward zero adds to a dividend. -/
def rounding (x c : Int) : Int := if x < 0 then c - 1 else 0

/-- A truncated quotient is the floor of the rounded dividend. -/
theorem tdiv_eq_ediv (x : Int) {c : Int} (hc : 0 < c) : x.tdiv c = (x + rounding x c) / c := by
  obtain ⟨hx, hp, hn⟩ := tdiv_tmod_spec x c hc
  symm
  apply ((Int.ediv_emod_unique hc (r := x.tmod c + rounding x c)).mpr ⟨by omega, ?_, ?_⟩).1
  · unfold rounding
    split <;> omega
  · unfold rounding
    split <;> omega

/-- The dividends of a quotient. -/
theorem tdiv_eq_iff {x c q : Int} (hc : 0 < c) :
    x.tdiv c = q ↔ c * q ≤ x + rounding x c ∧ x + rounding x c < c * q + c := by
  rw [tdiv_eq_ediv x hc]
  constructor
  · rintro rfl
    have hm := Int.mul_ediv_add_emod (x + rounding x c) c
    have hlo := Int.emod_nonneg (x + rounding x c) (show c ≠ 0 by omega)
    have hhi := Int.emod_lt_of_pos (x + rounding x c) hc
    omega
  · intro ⟨hlo, hhi⟩
    exact ((Int.ediv_emod_unique hc (r := x + rounding x c - c * q)).mpr
      ⟨by omega, by omega, by omega⟩).1

/-- The total by which numbers fall short of `q`. -/
def shortfall (q : Int) (xs : List Int) : Int := (xs.map (q - ·)).sum

theorem sum_add_shortfall (q : Int) (xs : List Int) :
    xs.sum + shortfall q xs = q * xs.length := by
  induction xs with
  | nil => simp [shortfall]
  | cons x xs ih =>
    rw [shortfall] at ih ⊢
    simp only [List.map_cons, List.sum_cons, List.length_cons, Int.natCast_add, Int.mul_add]
    omega

variable {α : Type} (f : α → Int) (p : α → Bool) (xs : List α)

/-- A list splits into the members that have a property and those that do not. -/
theorem sum_filter_add :
    ((xs.filter p).map f).sum + ((xs.filter (!p ·)).map f).sum = (xs.map f).sum ∧
      (xs.filter p).length + (xs.filter (!p ·)).length = xs.length := by
  have hp := List.filter_append_perm p xs
  rw [← List.sum_append, ← List.map_append, ← List.length_append]
  exact ⟨(hp.map f).sum_eq, hp.length_eq⟩

/-- The truncated mean of all members is the floor of the mean of those with a property, less
`c`, exactly if the others fall short of the latter by its remainder and `c` for each member,
up to rounding. -/
theorem tdiv_mean_eq_iff (c : Int) (hp : xs.filter p ≠ []) :
    let n : Int := (xs.filter p).length
    let q := ((xs.filter p).map f).sum / n
    let r := ((xs.filter p).map f).sum % n + xs.length * c + rounding (xs.map f).sum xs.length
    (xs.map f).sum.tdiv xs.length = q - c ↔
      shortfall q ((xs.filter (!p ·)).map f) ≤ r ∧
        r < shortfall q ((xs.filter (!p ·)).map f) + xs.length := by
  intro n q r
  obtain ⟨hs, hl⟩ := sum_filter_add f p xs
  have hn : 0 < (xs.filter p).length := List.length_pos_iff.mpr hp
  have hd : n * q + ((xs.filter p).map f).sum % n = ((xs.filter p).map f).sum :=
    Int.mul_ediv_add_emod _ n
  have hf := sum_add_shortfall q ((xs.filter (!p ·)).map f)
  rw [List.length_map] at hf
  have hlen : (xs.length : Int) = n + (xs.filter (!p ·)).length := by omega
  have hall : (xs.length : Int) * q = n * q + q * (xs.filter (!p ·)).length := by
    rw [hlen, Int.add_mul, Int.mul_comm q]
  rw [tdiv_eq_iff (by omega), Int.mul_sub]
  omega

/-- A mean moves with its members. -/
theorem sum_map_sub_ediv (c : Int) (hx : xs ≠ []) :
    (xs.map (f · - c)).sum / xs.length = (xs.map f).sum / xs.length - c := by
  have hs : (xs.map (f · - c)).sum = (xs.map f).sum - c * xs.length := by
    induction xs with
    | nil => simp
    | cons x xs ih =>
      obtain rfl | hne := eq_or_ne xs []
      · simp
      · simp only [List.map_cons, List.sum_cons, List.length_cons, Int.natCast_add, Int.mul_add,
          ih hne]
        omega
  have hn : 0 < xs.length := List.length_pos_iff.mpr hx
  rw [hs, Int.sub_mul_ediv_right _ _ (by omega)]

/-- A sum is not below a lower bound of all members, once for each. -/
theorem length_mul_le_sum {b : Int} (h : ∀ x ∈ xs, b ≤ f x) :
    (xs.length : Int) * b ≤ (xs.map f).sum := by
  induction xs with
  | nil => simp
  | cons x xs ih =>
    have hx := h x List.mem_cons_self
    have hxs := ih fun y hy ↦ h y (List.mem_cons_of_mem x hy)
    simp only [List.map_cons, List.sum_cons, List.length_cons, Int.natCast_add, Int.add_mul]
    omega

/-- A truncated mean is not below a lower bound of all members. -/
theorem le_tdiv_mean {b : Int} (h : ∀ x ∈ xs, b ≤ f x) (hx : xs ≠ []) :
    b ≤ (xs.map f).sum.tdiv xs.length := by
  have hn : 0 < xs.length := List.length_pos_iff.mpr hx
  have hle := length_mul_le_sum f xs h
  obtain ⟨-, hhi⟩ := (tdiv_eq_iff (show 0 < (xs.length : Int) by omega)).mp
    (rfl : (xs.map f).sum.tdiv xs.length = _)
  have hr : 0 ≤ rounding (xs.map f).sum xs.length := by
    unfold rounding
    split <;> omega
  have hlt : (xs.length : Int) * b < xs.length * ((xs.map f).sum.tdiv xs.length + 1) := by
    rw [Int.mul_add, Int.mul_one]
    omega
  have := Int.lt_of_mul_lt_mul_left hlt (Int.natCast_nonneg _)
  omega

end Truncation
