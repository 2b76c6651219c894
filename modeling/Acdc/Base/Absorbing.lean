import Mathlib.Data.List.Basic

/-!
# Absorbing updates

Updates of a state that commute with each other and that do nothing when they are repeated. The
result of a sequence of such updates depends on which updates it has, and neither on their order
nor on their number.
-/

variable {α β : Type*}

/-- Updates with elements of `S` commute, and repeating one does nothing. -/
structure Absorbing (f : α → β → α) (S : β → Prop) : Prop where
  comm : ∀ b, S b → ∀ b', S b' → ∀ a, f (f a b) b' = f (f a b') b
  idem : ∀ b, S b → ∀ a, f (f a b) b = f a b

namespace Absorbing

variable {f : α → β → α} {S : β → Prop} (H : Absorbing f S) {l l' : List β}
include H

/-- An update commutes with a sequence. -/
theorem foldl_update (hl : ∀ b ∈ l, S b) {b : β} (hb : S b) (a : α) :
    l.foldl f (f a b) = f (l.foldl f a) b := by
  induction l generalizing a with
  | nil => rfl
  | cons c l ih =>
    rw [List.foldl_cons, List.foldl_cons, H.comm b hb c (hl c List.mem_cons_self)]
    exact ih (fun d hd ↦ hl d (List.mem_cons_of_mem c hd)) (f a c)

/-- Two sequences commute. -/
theorem foldl_comm (hl : ∀ b ∈ l, S b) (hl' : ∀ b ∈ l', S b) (a : α) :
    l'.foldl f (l.foldl f a) = l.foldl f (l'.foldl f a) := by
  induction l generalizing a with
  | nil => rfl
  | cons b l ih =>
    rw [List.foldl_cons, List.foldl_cons, ih fun c hc ↦ hl c (List.mem_cons_of_mem b hc),
      H.foldl_update hl' (hl b List.mem_cons_self)]

/-- An update before a sequence that has it does nothing. -/
theorem foldl_of_mem (hl : ∀ b ∈ l, S b) {b : β} (hb : b ∈ l) (a : α) :
    l.foldl f (f a b) = l.foldl f a := by
  induction l generalizing a with
  | nil => cases hb
  | cons c l ih =>
    have hS := hl b hb
    have hc := hl c List.mem_cons_self
    rw [List.foldl_cons, List.foldl_cons]
    obtain rfl | hb := List.mem_cons.mp hb
    · rw [H.idem b hS]
    · rw [H.comm b hS c hc]
      exact ih (fun d hd ↦ hl d (List.mem_cons_of_mem c hd)) hb (f a c)

/-- A sequence before another one that has all its updates does nothing. -/
theorem foldl_of_subset (hl' : ∀ b ∈ l', S b) (hs : l ⊆ l') (a : α) :
    l'.foldl f (l.foldl f a) = l'.foldl f a := by
  induction l generalizing a with
  | nil => rfl
  | cons b l ih =>
    rw [List.foldl_cons, ih fun c hc ↦ hs (List.mem_cons_of_mem b hc),
      H.foldl_of_mem hl' (hs List.mem_cons_self)]

/-- Sequences of the same updates have the same result. -/
theorem foldl_eq (hl : ∀ b ∈ l, S b) (h : ∀ b, b ∈ l ↔ b ∈ l') (a : α) :
    l.foldl f a = l'.foldl f a := by
  have hl' : ∀ b ∈ l', S b := fun b hb ↦ hl b ((h b).mpr hb)
  calc
    l.foldl f a = l.foldl f (l'.foldl f a) :=
      (H.foldl_of_subset hl (fun b hb ↦ (h b).mpr hb) a).symm
    _ = l'.foldl f (l.foldl f a) := H.foldl_comm hl' hl a
    _ = l'.foldl f a := H.foldl_of_subset hl' (fun b hb ↦ (h b).mp hb) a

end Absorbing
