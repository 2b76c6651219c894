import Acdc.Base.ArrayTree
import Mathlib.Data.Nat.Size

/-!
# Balanced trees

A tree in which the sizes of the two subtrees of every node differ by at most one is as low
as its size allows, and so is the tree of the indices of an array. A tree may also be listed
with its right subtrees first.
-/

namespace BinaryTree

variable {α β : Type*}

/-- The nodes of a tree, each before its right subtree and that before its left one. -/
def inversePreorder : BinaryTree α → List α
  | .nil => []
  | .node a l r => a :: (inversePreorder r ++ inversePreorder l)

/-- Both orders list the same nodes. -/
theorem inversePreorder_perm (t : BinaryTree α) : t.inversePreorder.Perm t.preorder := by
  induction t with
  | nil => exact .refl _
  | node a l r ihl ihr =>
    apply List.Perm.cons
    exact List.perm_append_comm.trans (ihl.append ihr)

theorem height_map (f : α → β) (t : BinaryTree α) : (t.map f).height = t.height := by
  induction t with
  | nil => rfl
  | node a l r ihl ihr => rw [map, height, height, ihl, ihr]

/-- The sizes of the two subtrees of every node differ by at most one. -/
def SizeBalanced : BinaryTree α → Prop
  | .nil => True
  | .node _ l r => l.numNodes ≤ r.numNodes + 1 ∧ r.numNodes ≤ l.numNodes + 1 ∧
      l.SizeBalanced ∧ r.SizeBalanced

private theorem size_succ (n : Nat) : Nat.size (n + 1) = Nat.size ((n + 1) / 2) + 1 := by
  have h := Nat.size_bit (b := (n + 1).bodd) (n := (n + 1) / 2)
  rw [← Nat.div2_val, Nat.bit_bodd_div2] at h
  rw [h (Nat.succ_ne_zero n), Nat.div2_val]

/-- The height of a balanced tree is the number of binary digits of its size. -/
theorem SizeBalanced.height {t : BinaryTree α} (h : t.SizeBalanced) :
    t.height = t.numNodes.size := by
  induction t with
  | nil => rfl
  | node a l r ihl ihr =>
    obtain ⟨hlr, hrl, hl, hr⟩ := h
    rw [BinaryTree.height, numNodes, ihl hl, ihr hr, size_succ]
    obtain hle | hle := Nat.le_total l.numNodes r.numNodes
    · rw [Nat.max_eq_right (Nat.size_le_size hle)]
      congr 2
      omega
    · rw [Nat.max_eq_left (Nat.size_le_size hle)]
      congr 2
      omega

/-- The number of binary digits as a logarithm. -/
theorem size_eq_log2 {n : Nat} (h : 0 < n) : n.size = n.log2 + 1 := by
  apply Nat.le_antisymm
  · exact Nat.size_le.mpr Nat.lt_log2_self
  · exact Nat.lt_size.mpr (Nat.log2_self_le (Nat.ne_of_gt h))

end BinaryTree

namespace ArrayTree

open BinaryTree

/-- The leftmost descendants of an index are the deepest ones. -/
theorem height_arrayTree (n i : Nat) : (arrayTree n i).height = (n / (i + 1)).size := by
  induction i using arrayTree.induct n with
  | case1 i hi ihl ihr =>
    have hn : n / (i + 1) ≠ 0 := by
      rw [Nat.div_ne_zero_iff]
      omega
    obtain ⟨m, hm⟩ := Nat.exists_eq_succ_of_ne_zero hn
    have hleft : n / (2 * i + 1 + 1) = (m + 1) / 2 := by
      rw [← Nat.succ_eq_add_one m, ← hm, Nat.div_div_eq_div_mul]
      congr 1
      omega
    have hright : n / (2 * i + 2 + 1) ≤ n / (2 * i + 1 + 1) :=
      Nat.div_le_div_left (by omega) (by omega)
    rw [arrayTree, if_pos hi, BinaryTree.height, ihl, ihr, hm,
      Nat.max_eq_left (Nat.size_le_size hright), hleft, ← size_succ]
  | case2 i hi =>
    rw [arrayTree, if_neg hi, Nat.div_eq_of_lt (by omega)]
    rfl

/-- The tree of all indices of an array. -/
theorem height_arrayTree_zero {n : Nat} (h : 0 < n) : (arrayTree n 0).height = n.log2 + 1 := by
  rw [height_arrayTree, Nat.div_one, size_eq_log2 h]

/-- The two orders differ as soon as the first index has two children. -/
theorem inversePreorder_eq_preorder_iff {α : Type*} {n : Nat} {f : Nat → α}
    (hf : 2 < n → f 1 ≠ f 2) :
    ((arrayTree n 0).map f).inversePreorder = ((arrayTree n 0).map f).preorder ↔ n ≤ 2 := by
  have hlt {i : Nat} (h : i < n) :
      arrayTree n i = .node i (arrayTree n (2 * i + 1)) (arrayTree n (2 * i + 2)) := by
    rw [arrayTree, if_pos h]
  have hle {i : Nat} (h : n ≤ i) : arrayTree n i = .nil := by
    rw [arrayTree, if_neg (Nat.not_lt.mpr h)]
  constructor
  · intro h
    by_contra hn
    have hn : 2 < n := Nat.not_le.mp hn
    rw [hlt (by omega : 0 < n), hlt (by omega : 2 * 0 + 1 < n), hlt (by omega : 2 * 0 + 2 < n)] at h
    simp only [BinaryTree.map, inversePreorder, preorder, List.cons_append, List.cons.injEq] at h
    exact hf hn h.2.1.symm
  · intro hn
    obtain rfl | hpos := Nat.eq_zero_or_pos n
    · rw [hle (Nat.le_refl 0)]
      rfl
    · rw [hlt hpos, hle (by omega : n ≤ 2 * 0 + 2)]
      obtain h1 | h1 := Nat.lt_or_ge 1 n
      · rw [hlt (by omega : 2 * 0 + 1 < n), hle (by omega : n ≤ 2 * (2 * 0 + 1) + 1),
          hle (by omega : n ≤ 2 * (2 * 0 + 1) + 2)]
        rfl
      · rw [hle (by omega : n ≤ 2 * 0 + 1)]
        rfl

end ArrayTree
