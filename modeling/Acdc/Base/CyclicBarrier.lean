import Mathlib.Logic.Function.Basic

/-!
# Steps of a cyclic barrier

The parties of a cyclic barrier arrive in the first incomplete round, wait for it and depart once
it is complete. An implementation refines the barrier when each of its steps is one of these or
changes nothing that they tell.
-/

namespace Barrier

/-- The arrivals over all rounds, and the rounds that the parties wait for. -/
structure Cyclic where
  arrivals : Nat
  waits : Nat → Option Nat

/-- A party arrives or departs. -/
inductive Cyclic.Step (n : Nat) (s : Cyclic) : Cyclic → Prop where
  | arrive (i : Nat) (hi : i < n) (hw : s.waits i = none) :
      Cyclic.Step n s ⟨s.arrivals + 1, Function.update s.waits i (some (s.arrivals / n))⟩
  | depart (i round : Nat) (hi : i < n) (hw : s.waits i = some round)
      (hc : (round + 1) * n ≤ s.arrivals) :
      Cyclic.Step n s ⟨s.arrivals, Function.update s.waits i none⟩

namespace Cyclic

variable {n i round : Nat} {s t : Cyclic}

/-- An arrival, by what it changes. -/
theorem step_of_arrive (hi : i < n) (hw : s.waits i = none) (ha : t.arrivals = s.arrivals + 1)
    (ht : t.waits = Function.update s.waits i (some (s.arrivals / n))) : Step n s t := by
  obtain ⟨arrivals, waits⟩ := t
  obtain rfl : arrivals = _ := ha
  obtain rfl : waits = _ := ht
  exact .arrive i hi hw

/-- A departure, by what it changes. -/
theorem step_of_depart (hi : i < n) (hw : s.waits i = some round)
    (hc : (round + 1) * n ≤ s.arrivals) (ha : t.arrivals = s.arrivals)
    (ht : t.waits = Function.update s.waits i none) : Step n s t := by
  obtain ⟨arrivals, waits⟩ := t
  obtain rfl : arrivals = _ := ha
  obtain rfl : waits = _ := ht
  exact .depart i round hi hw hc

end Cyclic

/-- A transition that `abs` shows as a step of the barrier, or does not show. -/
def Refines {α : Type*} (abs : α → Cyclic) (n : Nat) (s t : α) : Prop :=
  Cyclic.Step n (abs s) (abs t) ∨ abs t = abs s

end Barrier
