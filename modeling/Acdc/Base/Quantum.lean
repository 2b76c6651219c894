import Mathlib.Algebra.GroupWithZero.Nat
import Mathlib.Data.List.Induction
import Mathlib.Algebra.Order.Group.Nat
import Mathlib.Data.Finset.Max
import Mathlib.Order.Interval.Finset.Nat

/-!
# Ticks of a quantum

An accumulator that is filled with amounts of work. Once it holds a quantum it ticks and starts
again from zero, whatever it holds in excess. Ticks are therefore at least a quantum apart, and
amounts that are bounded from below bound the number of additions between two ticks.
-/

namespace Quantum

/-- What has been filled in since the last tick, and the number of ticks. -/
structure Gauge where
  level : Nat
  ticks : Nat
  deriving DecidableEq, Repr

/-- One more amount. -/
def Gauge.add (q : Nat) (x : Gauge) (a : Nat) : Gauge :=
  if q ≤ x.level + a then ⟨0, x.ticks + 1⟩ else ⟨x.level + a, x.ticks⟩

/-- The gauge after some amounts. -/
def gauge (q : Nat) (as : List Nat) : Gauge := as.foldl (Gauge.add q) ⟨0, 0⟩

variable {q w a : Nat} {as bs : List Nat} {x : Gauge}

/-! ### One amount -/

/-- An amount that fills the quantum ticks. -/
theorem add_of_le (h : q ≤ x.level + a) : x.add q a = ⟨0, x.ticks + 1⟩ := if_pos h

theorem add_of_lt (h : x.level + a < q) : x.add q a = ⟨x.level + a, x.ticks⟩ :=
  if_neg (Nat.not_le.mpr h)

theorem ticks_le_add (q : Nat) (x : Gauge) (a : Nat) : x.ticks ≤ (x.add q a).ticks := by
  rw [Gauge.add]
  split
  · exact Nat.le_succ _
  · exact le_rfl

/-- The gauge ticks exactly if the amount fills the quantum. -/
theorem ticks_add_ne_iff : (x.add q a).ticks ≠ x.ticks ↔ q ≤ x.level + a := by
  rw [Gauge.add]
  split
  · next h => exact ⟨fun _ ↦ h, fun _ ↦ Nat.succ_ne_self _⟩
  · next h => exact ⟨fun hne ↦ absurd rfl hne, fun hle ↦ absurd hle h⟩

theorem level_add_of_ne (h : (x.add q a).ticks ≠ x.ticks) : (x.add q a).level = 0 := by
  rw [add_of_le (ticks_add_ne_iff.mp h)]

theorem level_add_of_eq (h : (x.add q a).ticks = x.ticks) :
    (x.add q a).level = x.level + a := by
  rw [add_of_lt (Nat.lt_of_not_le fun hle ↦ ticks_add_ne_iff.mpr hle h)]

/-! ### All amounts -/

@[simp] theorem gauge_nil : gauge q [] = ⟨0, 0⟩ := rfl

@[simp] theorem gauge_append_singleton : gauge q (as ++ [a]) = (gauge q as).add q a := by
  rw [gauge, List.foldl_append]
  rfl

/-- The gauge never holds a quantum. -/
theorem level_lt (hq : 0 < q) (as : List Nat) : (gauge q as).level < q := by
  induction as using List.reverseRecOn with
  | nil => exact hq
  | append_singleton as a ih =>
    rw [gauge_append_singleton, Gauge.add]
    split
    · exact hq
    · next h => exact Nat.lt_of_not_le h

/-- Every tick takes a quantum. -/
theorem ticks_mul_add_level_le (q : Nat) (as : List Nat) :
    (gauge q as).ticks * q + (gauge q as).level ≤ as.sum := by
  induction as using List.reverseRecOn with
  | nil =>
    rw [gauge_nil, Nat.zero_mul]
    exact le_rfl
  | append_singleton as a ih =>
    rw [gauge_append_singleton, List.sum_append, List.sum_singleton]
    by_cases h : q ≤ (gauge q as).level + a
    · rw [add_of_le h]
      dsimp only
      rw [Nat.succ_mul]
      omega
    · rw [add_of_lt (Nat.lt_of_not_le h)]
      dsimp only
      omega

theorem ticks_le_append (q : Nat) (as bs : List Nat) :
    (gauge q as).ticks ≤ (gauge q (as ++ bs)).ticks := by
  induction bs using List.reverseRecOn with
  | nil => rw [List.append_nil]
  | append_singleton bs b ih =>
    rw [← List.append_assoc, gauge_append_singleton]
    exact ih.trans (ticks_le_add _ _ _)

/-- From zero on and without a tick, the gauge holds all amounts. -/
theorem level_append (h0 : (gauge q as).level = 0)
    (ht : (gauge q (as ++ bs)).ticks = (gauge q as).ticks) :
    (gauge q (as ++ bs)).level = bs.sum := by
  induction bs using List.reverseRecOn with
  | nil => rwa [List.append_nil]
  | append_singleton bs b ih =>
    rw [← List.append_assoc, gauge_append_singleton] at ht ⊢
    have hle := ticks_le_append q as bs
    have hle' := ticks_le_add q (gauge q (as ++ bs)) b
    rw [level_add_of_eq (by omega), ih (by omega), List.sum_append, List.sum_singleton]

private theorem succ_le_ceil {r : Nat} (hw : 0 < w) (hr : r * w < q) :
    r + 1 ≤ (q + (w - 1)) / w := by
  rw [Nat.le_div_iff_mul_le hw, Nat.succ_mul]
  omega

/-- Amounts of at least `w` move the gauge on, each by at least one part of a quantum. -/
theorem length_add_le (hw : 0 < w) (hq : 0 < q) (as bs : List Nat) (hbs : ∀ b ∈ bs, w ≤ b) :
    (gauge q as).ticks * ((q + (w - 1)) / w) + bs.length ≤
      (gauge q (as ++ bs)).ticks * ((q + (w - 1)) / w) + (gauge q (as ++ bs)).level / w := by
  induction bs using List.reverseRecOn with
  | nil =>
    rw [List.append_nil]
    exact Nat.le_add_right _ _
  | append_singleton bs b ih =>
    have hb : w ≤ b := hbs b (List.mem_append_right _ List.mem_cons_self)
    have hle := ih fun b hb ↦ hbs b (List.mem_append_left _ hb)
    rw [← List.append_assoc, gauge_append_singleton, List.length_append, List.length_singleton]
    by_cases h : q ≤ (gauge q (as ++ bs)).level + b
    · have hceil := succ_le_ceil hw
        ((Nat.div_mul_le_self _ w).trans_lt (level_lt hq (as ++ bs)))
      rw [add_of_le h]
      dsimp only
      rw [Nat.succ_mul, Nat.zero_div]
      omega
    · have hdiv := Nat.div_le_div_right (c := w) (Nat.add_le_add_left hb (gauge q (as ++ bs)).level)
      rw [Nat.add_div_right _ hw] at hdiv
      rw [add_of_lt (Nat.lt_of_not_le h)]
      dsimp only
      omega

/-- Between two ticks there are fewer amounts of at least `w` than fill the quanta. -/
theorem length_lt_of_append (hw : 0 < w) (hq : 0 < q) (as bs : List Nat)
    (hbs : ∀ b ∈ bs, w ≤ b) : (gauge q as).ticks * ((q + (w - 1)) / w) + bs.length <
      ((gauge q (as ++ bs)).ticks + 1) * ((q + (w - 1)) / w) := by
  have hle := length_add_le hw hq as bs hbs
  have hceil := succ_le_ceil hw ((Nat.div_mul_le_self _ w).trans_lt (level_lt hq (as ++ bs)))
  rw [Nat.succ_mul]
  omega

/-- Amounts of at least `w` are fewer than those that fill one more quantum. -/
theorem length_lt (hw : 0 < w) (hq : 0 < q) (as : List Nat) (has : ∀ a ∈ as, w ≤ a) :
    as.length < ((gauge q as).ticks + 1) * ((q + (w - 1)) / w) := by
  have hlt := length_lt_of_append hw hq [] as has
  rwa [gauge_nil, Nat.zero_mul, Nat.zero_add] at hlt

end Quantum
