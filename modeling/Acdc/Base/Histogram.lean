import Mathlib.Algebra.BigOperators.Group.Finset.Basic
import Mathlib.Algebra.BigOperators.Intervals

/-!
# Histograms

Arrays of counters over an additive monoid, read as zero outside their bounds: raising one
entry, and adding the first entries of one histogram to another, entry by entry.
-/

namespace Histogram

variable {M : Type*} [AddCommMonoid M]

/-- Addition of `x` to entry `k`. -/
def raise (h : List M) (k : Nat) (x : M) : List M := h.modify k (· + x)

/-- Addition of the first `bound` entries of `res` to those of `acc`. -/
def merge (bound : Nat) (acc res : List M) : List M :=
  (List.range bound).foldl (fun h j ↦ raise h j (res.getD j 0)) acc

@[simp] theorem length_raise (h : List M) (k : Nat) (x : M) :
    (raise h k x).length = h.length := List.length_modify ..

/-- Raising one entry changes that entry only. -/
theorem getD_raise {h : List M} {k : Nat} (hk : k < h.length) (x : M) (j : Nat) :
    (raise h k x).getD j 0 = h.getD j 0 + if k = j then x else 0 := by
  rw [raise, List.getD_eq_getElem?_getD, List.getElem?_modify, List.getD_eq_getElem?_getD]
  split
  · next he =>
    subst he
    rw [List.getElem?_eq_getElem hk]
    rfl
  · next he => simp

/-- Raising one entry raises the total. -/
theorem sum_raise {h : List M} {n k : Nat} (hn : h.length = n) (hk : k < n) (x : M) :
    ∑ j ∈ Finset.range n, (raise h k x).getD j 0 =
      ∑ j ∈ Finset.range n, h.getD j 0 + x := by
  simp only [getD_raise (hn ▸ hk), Finset.sum_add_distrib, Finset.sum_ite_eq, Finset.mem_range,
    if_pos hk]

private theorem merge_succ (bound : Nat) (acc res : List M) :
    merge (bound + 1) acc res = raise (merge bound acc res) bound (res.getD bound 0) := by
  rw [merge, List.range_succ, List.foldl_append]
  rfl

@[simp] theorem length_merge (bound : Nat) (acc res : List M) :
    (merge bound acc res).length = acc.length := by
  induction bound with
  | zero => rfl
  | succ bound ih => rw [merge_succ, length_raise, ih]

/-- Merging adds the entries below the bound. -/
theorem getD_merge {bound : Nat} {acc : List M} (hb : bound ≤ acc.length) (res : List M)
    (j : Nat) :
    (merge bound acc res).getD j 0 = acc.getD j 0 + if j < bound then res.getD j 0 else 0 := by
  induction bound with
  | zero => simp [merge]
  | succ bound ih =>
    rw [merge_succ, getD_raise (by rw [length_merge]; omega), ih (by omega), add_assoc]
    congr 1
    by_cases hj : bound = j
    · subst hj
      simp
    · have hlt : j < bound + 1 ↔ j < bound := by omega
      simp [hj, hlt]

/-- Merging a sequence of histograms adds the entries below the bound. -/
theorem getD_foldl_merge {ι : Type*} {bound : Nat} {acc : List M} (hb : bound ≤ acc.length)
    (res : ι → List M) (is : List ι) (j : Nat) :
    (is.foldl (fun h i ↦ merge bound h (res i)) acc).getD j 0 =
      acc.getD j 0 + if j < bound then (is.map fun i ↦ (res i).getD j 0).sum else 0 := by
  induction is generalizing acc with
  | nil => simp
  | cons i is ih =>
    rw [List.foldl_cons, ih (by rw [length_merge]; exact hb), getD_merge hb, List.map_cons,
      List.sum_cons, add_assoc]
    split <;> simp

end Histogram
