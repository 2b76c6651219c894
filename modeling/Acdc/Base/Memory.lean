import Acdc.Base.ArrayTree
import Mathlib.Data.Nat.Digits.Defs

/-!
# Byte memory

A memory maps addresses to bytes. Words of eight bytes are little-endian. Regions are
intervals of addresses. Lists and trees whose nodes are linked by words of the memory
depend on these words only.
-/

/-- A byte for each address. -/
abbrev Memory := Nat → UInt8

namespace Memory

/-- The byte `i` of a word. -/
def byteOf (v : UInt64) (i : Nat) : UInt8 := UInt8.ofNat (v.toNat / 256 ^ i)

/-- The word at an address. -/
def load (m : Memory) (a : Nat) : UInt64 :=
  UInt64.ofNat (Nat.ofDigits 256 ((List.range 8).map fun i ↦ (m (a + i)).toNat))

/-- The memory after a word is stored. -/
def store (m : Memory) (a : Nat) (v : UInt64) : Memory :=
  fun x ↦ if a ≤ x ∧ x < a + 8 then byteOf v (x - a) else m x

/-- A word depends on its eight bytes. -/
theorem load_congr {m m' : Memory} {a : Nat} (h : ∀ x, a ≤ x → x < a + 8 → m' x = m x) :
    load m' a = load m a := by
  unfold load
  congr 2
  apply List.map_congr_left
  intro i hi
  have hi := List.mem_range.mp hi
  rw [h (a + i) (by omega) (by omega)]

/-- The stored word is loaded. -/
theorem load_store (m : Memory) (a : Nat) (v : UInt64) : load (store m a v) a = v := by
  have hv := v.toNat_lt
  have hb (i : Nat) (hi : i < 8) : (store m a v (a + i)).toNat = v.toNat / 256 ^ i % 256 := by
    rw [store, if_pos ⟨by omega, by omega⟩, Nat.add_sub_cancel_left, byteOf, UInt8.toNat_ofNat']
  have hm : ((List.range 8).map fun i ↦ (store m a v (a + i)).toNat) =
      (List.range 8).map fun i ↦ v.toNat / 256 ^ i % 256 := by
    apply List.map_congr_left
    intro i hi
    exact hb i (List.mem_range.mp hi)
  have hd : Nat.ofDigits 256 ((List.range 8).map fun i ↦ v.toNat / 256 ^ i % 256) = v.toNat := by
    simp only [List.range_succ_eq_map, List.range_zero, List.map_cons, List.map_nil,
      Nat.ofDigits_cons, Nat.ofDigits_nil]
    simp
    omega
  rw [load, hm, hd, UInt64.ofNat_toNat]

/-- Bytes outside a word are not stored to. -/
theorem store_of_not_mem {m : Memory} {a x : Nat} {v : UInt64} (h : ¬ (a ≤ x ∧ x < a + 8)) :
    store m a v x = m x := if_neg h

/-- A word that does not overlap the stored one is loaded as before. -/
theorem load_store_of_disjoint {m : Memory} {a b : Nat} {v : UInt64}
    (h : a + 8 ≤ b ∨ b + 8 ≤ a) : load (store m a v) b = load m b := by
  apply load_congr
  intro x hx hx'
  exact store_of_not_mem (by omega)

/-! ### Linked structures -/

/-- A pointer `p` that leads to `r` along the nodes of a list, each of which starts with a
pointer to the next. -/
def ListAt (m : Memory) : UInt64 → List UInt64 → UInt64 → Prop
  | p, [], r => p = r
  | p, q :: qs, r => p = q ∧ q ≠ 0 ∧ ListAt m (load m q.toNat) qs r

/-- A pointer to a tree of nodes, each of which starts with pointers to its subtrees. -/
def TreeAt (m : Memory) : UInt64 → BinaryTree UInt64 → Prop
  | p, .nil => p = 0
  | p, .node q l r =>
    p = q ∧ q ≠ 0 ∧ TreeAt m (load m q.toNat) l ∧ TreeAt m (load m (q.toNat + 8)) r

/-- The first `n` bytes of each node are the same in both memories. -/
def SameHeaders (n : Nat) (qs : List UInt64) (m m' : Memory) : Prop :=
  ∀ q ∈ qs, ∀ x, q.toNat ≤ x → x < q.toNat + n → m' x = m x

theorem SameHeaders.subset {n : Nat} {qs qs' : List UInt64} {m m' : Memory}
    (h : SameHeaders n qs m m') (hs : ∀ q ∈ qs', q ∈ qs) : SameHeaders n qs' m m' :=
  fun q hq ↦ h q (hs q hq)

theorem SameHeaders.symm {n : Nat} {qs : List UInt64} {m m' : Memory}
    (h : SameHeaders n qs m m') : SameHeaders n qs m' m :=
  fun q hq x hx hx' ↦ (h q hq x hx hx').symm

/-- A link of a header. -/
theorem SameHeaders.load {n k : Nat} {qs : List UInt64} {m m' : Memory}
    (h : SameHeaders n qs m m') {q : UInt64} (hq : q ∈ qs) (hk : k + 8 ≤ n) :
    Memory.load m' (q.toNat + k) = Memory.load m (q.toNat + k) := by
  apply load_congr
  intro x hx hx'
  exact h q hq x (by omega) (by omega)

/-- The links lead along one list. -/
theorem ListAt.unique {m : Memory} {p : UInt64} {qs qs' : List UInt64} (h : ListAt m p qs 0)
    (h' : ListAt m p qs' 0) : qs = qs' := by
  induction qs generalizing qs' p with
  | nil =>
    cases qs' with
    | nil => rfl
    | cons q qs' => exact absurd (h'.1.symm.trans h) h'.2.1
  | cons q qs ih =>
    cases qs' with
    | nil => exact absurd (h.1.symm.trans h') h.2.1
    | cons q' qs' =>
      obtain ⟨rfl, -, hl⟩ := h
      obtain ⟨rfl, -, hl'⟩ := h'
      rw [ih hl hl']

/-- The links lead to one tree. -/
theorem TreeAt.unique {m : Memory} {p : UInt64} {t t' : BinaryTree UInt64} (h : TreeAt m p t)
    (h' : TreeAt m p t') : t = t' := by
  induction t generalizing t' p with
  | nil =>
    cases t' with
    | nil => rfl
    | node q l r => exact absurd (h'.1.symm.trans h) h'.2.1
  | node q l r ihl ihr =>
    cases t' with
    | nil => exact absurd (h.1.symm.trans h') h.2.1
    | node q' l' r' =>
      obtain ⟨rfl, -, hl, hr⟩ := h
      obtain ⟨rfl, -, hl', hr'⟩ := h'
      rw [ihl hl hl', ihr hr hr']

/-- A list depends on the first word of its nodes. -/
theorem ListAt.congr {m m' : Memory} {n : Nat} {p r : UInt64} {qs : List UInt64}
    (h : ListAt m p qs r) (hn : 8 ≤ n) (hm : SameHeaders n qs m m') : ListAt m' p qs r := by
  induction qs generalizing p with
  | nil => exact h
  | cons q qs ih =>
    obtain ⟨hp, h0, hq⟩ := h
    refine ⟨hp, h0, ?_⟩
    rw [show Memory.load m' q.toNat = Memory.load m q.toNat from
      hm.load (k := 0) List.mem_cons_self hn]
    exact ih hq (hm.subset fun _ ↦ List.mem_cons_of_mem q)

/-- A list grows at its end. -/
theorem ListAt.snoc {m : Memory} {p q : UInt64} {qs : List UInt64} (h : ListAt m p qs q)
    (hq : q ≠ 0) : ListAt m p (qs ++ [q]) (load m q.toNat) := by
  induction qs generalizing p with
  | nil => exact ⟨h, hq, rfl⟩
  | cons _ qs ih => exact ⟨h.1, h.2.1, ih h.2.2⟩

/-- A tree depends on the first two words of its nodes. -/
theorem TreeAt.congr {m m' : Memory} {n : Nat} {p : UInt64} {t : BinaryTree UInt64}
    (h : TreeAt m p t) (hn : 16 ≤ n) (hm : SameHeaders n t.preorder m m') : TreeAt m' p t := by
  induction t generalizing p with
  | nil => exact h
  | node q l r ihl ihr =>
    obtain ⟨hp, h0, hl, hr⟩ := h
    have hml : load m' q.toNat = load m q.toNat := hm.load (k := 0) List.mem_cons_self (by omega)
    have hmr := hm.load (k := 8) List.mem_cons_self (by omega)
    refine ⟨hp, h0, ?_, ?_⟩
    · rw [hml]
      exact ihl hl (hm.subset fun x hx ↦ List.mem_cons_of_mem q (List.mem_append_left _ hx))
    · rw [hmr]
      exact ihr hr (hm.subset fun x hx ↦ List.mem_cons_of_mem q (List.mem_append_right _ hx))

/-- An array whose elements link to their children, or to nothing, holds a tree. -/
theorem treeAt_arrayTree {m : Memory} {n : Nat} {f : Nat → UInt64} (h0 : ∀ i < n, f i ≠ 0)
    (hl : ∀ i < n, load m (f i).toNat = if 2 * i + 1 < n then f (2 * i + 1) else 0)
    (hr : ∀ i < n, load m ((f i).toNat + 8) = if 2 * i + 2 < n then f (2 * i + 2) else 0)
    (i : Nat) : TreeAt m (if i < n then f i else 0) ((ArrayTree.arrayTree n i).map f) := by
  induction i using ArrayTree.arrayTree.induct n with
  | case1 i hi ihl ihr =>
    rw [ArrayTree.arrayTree, if_pos hi, if_pos hi]
    refine ⟨rfl, h0 i hi, ?_, ?_⟩
    · rw [hl i hi]
      exact ihl
    · rw [hr i hi]
      exact ihr
  | case2 i hi =>
    rw [ArrayTree.arrayTree, if_neg hi, if_neg hi]
    rfl

end Memory
