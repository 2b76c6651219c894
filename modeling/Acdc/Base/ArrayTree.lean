import Mathlib.Data.List.Perm.Lattice
import Mathlib.Data.Tree.Basic
import Mathlib.Logic.Relation

/-!
# Trees in arrays

The children of index `i` of an array are the indices `2 * i + 1` and `2 * i + 2`. The
indices of an array form one binary tree, with the first of them as its root.
-/

namespace BinaryTree

variable {α β : Type*}

/-- The nodes of a tree, each before its subtrees. -/
def preorder : BinaryTree α → List α
  | .nil => []
  | .node a l r => a :: (preorder l ++ preorder r)

/-- A tree has as many nodes as are listed. -/
theorem length_preorder (t : BinaryTree α) : t.preorder.length = t.numNodes := by
  induction t with
  | nil => rfl
  | node a l r ihl ihr =>
    rw [preorder, List.length_cons, List.length_append, ihl, ihr, numNodes]

theorem preorder_map (f : α → β) (t : BinaryTree α) : (t.map f).preorder = t.preorder.map f := by
  induction t with
  | nil => rfl
  | node a l r ihl ihr => simp only [map, preorder, ihl, ihr, List.map_cons, List.map_append]

end BinaryTree

namespace ArrayTree

open BinaryTree Relation

/-- The tree of the indices below `n` that descend from an index. -/
def arrayTree (n i : Nat) : BinaryTree Nat :=
  if i < n then .node i (arrayTree n (2 * i + 1)) (arrayTree n (2 * i + 2)) else .nil
termination_by n - i

/-- An index and one of its children. -/
def Child (i j : Nat) : Prop := j = 2 * i + 1 ∨ j = 2 * i + 2

/-- An index comes before its descendants. -/
theorem le_of_descends {i j : Nat} (h : ReflTransGen Child i j) : i ≤ j := by
  induction h with
  | refl => exact Nat.le_refl i
  | tail _ hc ih =>
    unfold Child at hc
    omega

/-- Every index descends from the first one. -/
theorem zero_descends (j : Nat) : ReflTransGen Child 0 j := by
  induction j using Nat.strongRecOn with
  | ind j ih =>
    obtain rfl | hj := Nat.eq_zero_or_pos j
    · exact .refl
    · apply (ih ((j - 1) / 2) (by omega)).tail
      unfold Child
      omega

/-- No index descends from both children of another one. -/
theorem not_descends_both {i j : Nat} (hl : ReflTransGen Child (2 * i + 1) j)
    (hr : ReflTransGen Child (2 * i + 2) j) : False := by
  -- of two ancestors of an index, one descends from the other
  have hu : Relator.RightUnique (Function.swap Child) := by
    intro a b c hb hc
    unfold Function.swap Child at hb hc
    omega
  have hlr := ReflTransGen.total_of_right_unique hu (reflTransGen_swap.mpr hl)
    (reflTransGen_swap.mpr hr)
  have hno {a b : Nat} (hc : Child i a) (hb : Child i b) (hne : a ≠ b) :
      ¬ ReflTransGen Child a b := by
    intro h
    obtain he | ⟨c, hac, hcb⟩ := h.cases_tail
    · exact hne he.symm
    · have := le_of_descends hac
      unfold Child at hc hb hcb
      omega
  obtain h | h := hlr
  · exact hno (.inr rfl) (.inl rfl) (by omega) (reflTransGen_swap.mp h)
  · exact hno (.inl rfl) (.inr rfl) (by omega) (reflTransGen_swap.mp h)

/-- The tree of an index holds its descendants. -/
theorem mem_preorder_arrayTree {n i j : Nat} :
    j ∈ (arrayTree n i).preorder ↔ j < n ∧ ReflTransGen Child i j := by
  induction i using arrayTree.induct n with
  | case1 i hi ihl ihr =>
    rw [arrayTree, if_pos hi, preorder, List.mem_cons, List.mem_append, ihl, ihr,
      ReflTransGen.cases_head_iff (a := i)]
    constructor
    · rintro (rfl | ⟨hj, h⟩ | ⟨hj, h⟩)
      · exact ⟨hi, .inl rfl⟩
      · exact ⟨hj, .inr ⟨_, .inl rfl, h⟩⟩
      · exact ⟨hj, .inr ⟨_, .inr rfl, h⟩⟩
    · rintro ⟨hj, rfl | ⟨_, rfl | rfl, h⟩⟩
      · exact .inl rfl
      · exact .inr (.inl ⟨hj, h⟩)
      · exact .inr (.inr ⟨hj, h⟩)
  | case2 i hi =>
    rw [arrayTree, if_neg hi]
    constructor
    · intro h
      cases h
    · rintro ⟨hj, h⟩
      have := le_of_descends h
      omega

theorem nodup_preorder_arrayTree (n i : Nat) : (arrayTree n i).preorder.Nodup := by
  induction i using arrayTree.induct n with
  | case1 i hi ihl ihr =>
    rw [arrayTree, if_pos hi, preorder, List.nodup_cons, List.nodup_append']
    refine ⟨?_, ihl, ihr, ?_⟩
    · intro h
      obtain h | h := List.mem_append.mp h
      · have := le_of_descends (mem_preorder_arrayTree.mp h).2
        omega
      · have := le_of_descends (mem_preorder_arrayTree.mp h).2
        omega
    · intro j hl hr
      exact not_descends_both (mem_preorder_arrayTree.mp hl).2 (mem_preorder_arrayTree.mp hr).2
  | case2 i hi =>
    rw [arrayTree, if_neg hi]
    exact List.nodup_nil

/-- The tree of the first index holds every index once. -/
theorem preorder_arrayTree_perm (n : Nat) : (arrayTree n 0).preorder.Perm (List.range n) := by
  apply (List.perm_ext_iff_of_nodup (nodup_preorder_arrayTree n 0) List.nodup_range).mpr
  intro j
  rw [mem_preorder_arrayTree, List.mem_range]
  exact and_iff_left (zero_descends j)

end ArrayTree
