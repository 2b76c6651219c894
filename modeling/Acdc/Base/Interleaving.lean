import Mathlib.Data.DFinsupp.WellFounded
import Mathlib.Data.Prod.Lex

/-!
# Interleavings that end

Finitely many parties take steps in any order. If each party has a measure that its own steps
lower and the steps of the others leave alone, then no run goes on forever, and the runs from one
state are no longer than a bound.
-/

namespace Interleaving

variable {α μ : Type*} {step : Nat → α → α → Prop} {n : Nat}

/-- Runs, with the parties that take the steps. -/
inductive Runs (step : Nat → α → α → Prop) : List Nat → α → α → Prop where
  | nil (s : α) : Runs step [] s s
  | cons {i : Nat} {is : List Nat} {s t u : α} (h : step i s t) (hr : Runs step is t u) :
      Runs step (i :: is) s u

/-- Steps that lower the measure of their party and no other measure come to an end. -/
theorem wellFounded_of_measure [Preorder μ] [WellFoundedLT μ] (m : α → Nat → μ)
    (hlt : ∀ i s t, step i s t → m t i < m s i)
    (heq : ∀ i s t, step i s t → ∀ j, j ≠ i → m t j = m s j) :
    WellFounded fun t s ↦ ∃ i < n, step i s t := by
  apply Subrelation.wf (r := InvImage (· < ·) fun s (j : Fin n) ↦ m s j)
  · rintro t s ⟨i, hi, h⟩
    apply Pi.lt_def.mpr
    constructor
    · intro j
      by_cases hj : (j : Nat) = i
      · subst hj
        exact (hlt j s t h).le
      · exact (heq i s t h j hj).le
    · exact ⟨⟨i, hi⟩, hlt i s t h⟩
  · exact InvImage.wf _ wellFounded_lt

/-- Runs of finitely many deterministic parties that all come to an end have a greatest length. -/
theorem exists_length_le (hn : ∀ i s t, step i s t → i < n)
    (hd : ∀ i s t t', step i s t → step i s t' → t = t')
    (hw : WellFounded fun t s ↦ ∃ i < n, step i s t) (s : α) :
    ∃ B, ∀ is t, Runs step is s t → is.length ≤ B := by
  induction s using hw.induction with
  | h s ih =>
    -- a bound for the runs that start with party `i`
    have hB (i : Nat) : ∃ B, ∀ is t u, step i s t → Runs step is t u → is.length ≤ B := by
      by_cases hi : ∃ t, step i s t
      · obtain ⟨t, ht⟩ := hi
        obtain ⟨B, hB⟩ := ih t ⟨i, hn i s t ht, ht⟩
        refine ⟨B, fun is t' u ht' hr ↦ ?_⟩
        rw [hd i s t' t ht' ht] at hr
        exact hB is u hr
      · exact ⟨0, fun is t u ht ↦ absurd ⟨t, ht⟩ hi⟩
    choose B hB using hB
    refine ⟨(Finset.range n).sup B + 1, fun is u hr ↦ ?_⟩
    cases hr with
    | nil => exact Nat.zero_le _
    | @cons i is _ t _ h hr =>
      have hle := hB i is t u h hr
      have hsup := Finset.le_sup (f := B) (Finset.mem_range.mpr (hn i s t h))
      rw [List.length_cons]
      omega

end Interleaving
