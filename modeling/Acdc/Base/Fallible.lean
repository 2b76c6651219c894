import Mathlib.Init

/-!
# Fallible computations

Postconditions of computations that return a value or an error. `Yields E x P` says that
`x` returns a value of `P` or fails with an error of `E`; with no error in `E` it says that
`x` returns. The rules follow the sequence and the loops of a computation.
-/

namespace Fallible

universe u

variable {ε : Type*} {α β : Type u} {E : ε → Prop}

/-- The computation returns a value of `P` or fails with an error of `E`. -/
def Yields (E : ε → Prop) (x : Except ε α) (P : α → Prop) : Prop :=
  match x with
  | .ok a => P a
  | .error e => E e

/-- A weaker postcondition, with more errors. -/
theorem Yields.mono {E' : ε → Prop} {x : Except ε α} {P Q : α → Prop} (h : Yields E x P)
    (hE : ∀ e, E e → E' e) (hP : ∀ a, P a → Q a) : Yields E' x Q := by
  cases x with
  | ok a => exact hP a h
  | error e => exact hE e h

/-- A weaker postcondition. -/
theorem Yields.imp {x : Except ε α} {P Q : α → Prop} (h : Yields E x P)
    (hP : ∀ a, P a → Q a) : Yields E x Q := h.mono (fun _ he ↦ he) hP

/-- A sequence of two computations. -/
theorem Yields.bind {x : Except ε α} {f : α → Except ε β} {P : α → Prop} {Q : β → Prop}
    (h : Yields E x P) (hf : ∀ a, P a → Yields E (f a) Q) : Yields E (x >>= f) Q := by
  cases x with
  | ok a => exact hf a h
  | error e => exact h

/-- Two postconditions hold together. -/
theorem Yields.and {E' : ε → Prop} {x : Except ε α} {P Q : α → Prop} (h : Yields E x P)
    (h' : Yields E' x Q) : Yields E x fun a ↦ P a ∧ Q a := by
  cases x with
  | ok a => exact ⟨h, h'⟩
  | error e => exact h

/-- The value of a computation is mapped. -/
theorem Yields.map {x : Except ε α} {f : α → β} {P : β → Prop}
    (h : Yields E x fun a ↦ P (f a)) : Yields E (x.map f) P := by
  cases x with
  | ok a => exact h
  | error e => exact h

/-- Without an error to fail with, the computation returns. -/
theorem Yields.exists_ok {x : Except ε α} {P : α → Prop} (h : Yields E x P)
    (hE : ∀ e, E e → x ≠ .error e) : ∃ a, x = .ok a ∧ P a := by
  cases x with
  | ok a => exact ⟨a, rfl, h⟩
  | error e => exact absurd rfl (hE e h)

/-- A loop over a list keeps what each turn keeps. -/
theorem Yields.foldlM {f : α → β → Except ε α} {P : α → Prop} {l : List β} {a : α} (h0 : P a)
    (hf : ∀ b ∈ l, ∀ a, P a → Yields E (f a b) P) : Yields E (l.foldlM f a) P := by
  induction l generalizing a with
  | nil => exact h0
  | cons b l ih =>
    rw [List.foldlM_cons]
    apply (hf b List.mem_cons_self a h0).bind
    intro a ha
    exact ih ha fun b hb ↦ hf b (List.mem_cons_of_mem _ hb)

/-- A counting loop: each turn leads from its count to the next one. -/
theorem Yields.foldlM_range {f : α → Nat → Except ε α} {P : Nat → α → Prop} {a : α} (n : Nat)
    (h0 : P 0 a) (hf : ∀ i < n, ∀ a, P i a → Yields E (f a i) (P (i + 1))) :
    Yields E ((List.range n).foldlM f a) (P n) := by
  induction n with
  | zero => exact h0
  | succ n ih =>
    rw [List.range_succ, List.foldlM_append]
    apply (ih fun i hi ↦ hf i (Nat.lt_succ_of_lt hi)).bind
    intro a ha
    rw [List.foldlM_cons]
    exact (hf n (Nat.lt_succ_self n) a ha).bind fun _ hb ↦ hb

end Fallible
