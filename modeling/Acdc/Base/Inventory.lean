import Mathlib.Algebra.BigOperators.Group.Finset.Basic
import Mathlib.Algebra.BigOperators.Intervals
import Mathlib.Algebra.Order.Group.Multiset
import Mathlib.Data.Multiset.AddSub

/-!
# Inventories

Items are kept in arrays of lists, and such arrays by finitely many holders. The
inventory of an array is the multiset of its items, and the inventory of all holders is
a finite sum. An update of one entry or of one holder adds or removes the items by which
the new part differs from the old one.
-/

namespace Inventory

variable {α β M : Type*}

/-- All items in an array of lists. -/
def bag (ls : List (List α)) : Multiset α := ls.flatten

/-- An array of empty lists holds nothing. -/
@[simp] theorem bag_replicate_nil (n : Nat) : bag (List.replicate n ([] : List α)) = 0 := by
  simp [bag]

/-- The first entry and the others share the items. -/
theorem bag_cons (l : List α) (ls : List (List α)) : bag (l :: ls) = ↑l + bag ls := by
  simp [bag]

/-- Items are those of the entries. -/
theorem mem_bag {ls : List (List α)} {a : α} : a ∈ bag ls ↔ ∃ l ∈ ls, a ∈ l := by
  simp [bag]

/-- Replacing one entry exchanges its items. -/
theorem bag_set (ls : List (List α)) (i : Nat) (h : i < ls.length) (l : List α) :
    bag (ls.set i l) + ↑ls[i] = bag ls + ↑l := by
  induction ls generalizing i with
  | nil => exact absurd h (Nat.not_lt_zero _)
  | cons m ls ih =>
    cases i with
    | zero =>
      rw [List.set_cons_zero, List.getElem_cons_zero, bag_cons, bag_cons, add_right_comm,
        add_comm (l : Multiset α), add_right_comm, add_right_comm]
    | succ i =>
      rw [List.set_cons_succ, List.getElem_cons_succ, bag_cons, bag_cons, add_assoc,
        ih i (Nat.lt_of_succ_lt_succ h), add_assoc]

/-- Appending items to one entry adds them. -/
theorem bag_modify_append (ls : List (List α)) (i : Nat) (h : i < ls.length) (m : List α) :
    bag (ls.modify i (· ++ m)) = bag ls + ↑m := by
  have hs := bag_set ls i h (ls[i] ++ m)
  have he : ls.modify i (· ++ m) = ls.set i (ls[i] ++ m) := by
    apply List.ext_getElem?
    intro j
    rw [List.getElem?_modify, List.getElem?_set]
    by_cases hj : i = j
    · subst hj
      simp [h]
    · simp [hj]
  rw [← Multiset.coe_add, add_comm (ls[i] : Multiset α), ← add_assoc] at hs
  rw [he]
  exact add_right_cancel hs

/-- Dropping the first item of one entry removes it. -/
theorem bag_set_tail (ls : List (List α)) (i : Nat) {a : α} {l : List α}
    (h : ls[i]? = some (a :: l)) : bag ls = a ::ₘ bag (ls.set i l) := by
  obtain ⟨hi, he⟩ := List.getElem?_eq_some_iff.mp h
  have hs := bag_set ls i hi l
  rw [he, ← Multiset.cons_coe, Multiset.add_cons, ← Multiset.cons_add] at hs
  exact (add_right_cancel hs).symm

/-- The items with a property that several holders have are those of each. -/
theorem countP_sum (p : α → Prop) [DecidablePred p] (n : Nat) (f : Nat → Multiset α) :
    (∑ i ∈ Finset.range n, f i).countP p = ∑ i ∈ Finset.range n, (f i).countP p :=
  map_sum (Multiset.countPAddMonoidHom p) f _

/-- Counting the images of items is counting the items with that image. -/
theorem count_map_eq [DecidableEq β] (f : α → β) (m : Multiset α) (b : β) :
    (m.map f).count b = m.countP (f · = b) := by
  simp only [Multiset.count_map, Multiset.countP_eq_card_filter, eq_comm]

section Holders

variable [AddCommMonoid M] {n i : Nat} (hi : i < n) (q : Nat → β → M) (t : Nat → β)
include hi

/-- The inventory of all holders is that of one of them and that of the others. -/
theorem sum_split :
    ∑ j ∈ Finset.range n, q j (t j) =
      q i (t i) + ∑ j ∈ (Finset.range n).erase i, q j (t j) :=
  (Finset.add_sum_erase _ _ (Finset.mem_range.mpr hi)).symm

/-- Replacing one holder leaves the inventory of the others. -/
theorem sum_update (b : β) :
    ∑ j ∈ Finset.range n, q j (Function.update t i b j) =
      q i b + ∑ j ∈ (Finset.range n).erase i, q j (t j) := by
  rw [sum_split hi q (Function.update t i b), Function.update_self]
  congr 1
  apply Finset.sum_congr rfl
  intro j hj
  rw [Function.update_of_ne (Finset.ne_of_mem_erase hj)]

/-- A holder that gains `x` adds it to the inventory of all holders. -/
theorem sum_update_add {b : β} {x : M} (h : q i b = q i (t i) + x) :
    ∑ j ∈ Finset.range n, q j (Function.update t i b j) =
      ∑ j ∈ Finset.range n, q j (t j) + x := by
  rw [sum_update hi, sum_split hi, h, add_right_comm]

end Holders

end Inventory
