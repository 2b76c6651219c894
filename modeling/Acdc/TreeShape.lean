import Acdc.WriteRatio

/-!
# Shape of the trees

What `build_tree_recursion` (`src/lifetime-size-classes.c:389–418`) and
`allocate_optimal_btree` (`src/lifetime-size-classes.c:355–387`) link: a tree of all objects
that is as low as their number allows. A bound on the depth of a recursion counts its nested
calls, the last of which finds no node.
-/

namespace Acdc.Objects

open Fallible Heap Memory BinaryTree ArrayTree

/-- Every recursion over a tree in memory nests one call for each level of the tree, and a
last one without a node. -/
structure NestsTo (A : Allocator) (sz : UInt64) (p : UInt64) (t : BinaryTree UInt64)
    (depth : Nat) : Prop where
  traversal : ∀ g : GOptions, -100 ≤ g.writeAccessRatio.toInt → sz.toNat < 2 ^ 31 →
    ∀ h fuel, Layout sz t.preorder h → TreeAt h.bytes p t →
      ((∃ h', btreeRecursion g sz fuel p h = .ok h') ↔ depth < fuel)
  deallocation : ∀ h fuel rest, h.live.Perm (t.preorder.map (object sz) ++ rest) →
    TreeAt h.bytes p t →
      ((∃ h', deallocateSubtreeRecursion A fuel p h = .ok h') ↔ depth < fuel)

/-- What `build_tree_recursion` builds from `h` to `h'`. -/
structure BuiltTree (A : Allocator) (sz : UInt64) (nelem : Nat) (h h' : Heap) (p : UInt64)
    (t : BinaryTree UInt64) : Prop where
  treeAt : TreeAt h'.bytes p t
  numNodes : t.numNodes = nelem
  nodup : t.preorder.Nodup
  -- the log has the newest allocation first
  allocated : (allocated (since h h')).reverse = t.preorder.map (object sz)
  layout : Layout sz t.preorder h'
  live : h'.live.Perm (t.preorder.map (object sz) ++ h.live)
  balanced : t.SizeBalanced
  height : t.height = nelem.log2 + 1
  nests : NestsTo A sz p t (nelem.log2 + 1)

/-- What `allocate_optimal_btree` links in the memory of `h`. -/
structure BuiltArray (sz : UInt64) (nelem : Nat) (h : Heap) (start : UInt64)
    (t : BinaryTree UInt64) : Prop where
  fits : start.toNat + sz.toNat * nelem ≤ 2 ^ 64
  links : ∀ i < nelem, ∀ k ∈ [0, 8], h.bytes.load ((elementAt start sz i).toNat + k) = 0 ∨
    ∃ j, 1 ≤ j ∧ j < nelem ∧
      h.bytes.load ((elementAt start sz i).toNat + k) = elementAt start sz j
  treeAt : TreeAt h.bytes start t
  once : t.preorder.Perm ((List.range nelem).map (elementAt start sz))
  nodup : t.preorder.Nodup
  height : t.height = nelem.log2 + 1
  layout : Layout sz t.preorder h

variable {A : Allocator} {sz : UInt64} {h h' : Heap} {p : UInt64} {t : BinaryTree UInt64}

private theorem exists_visits (hsz : 16 ≤ sz.toNat) {g : GOptions}
    (hw : -100 ≤ g.writeAccessRatio.toInt) (hs : sz.toNat < 2 ^ 31) {fuel : Nat}
    (L : Layout sz t.preorder h) (hl : TreeAt h.bytes p t) (hf : t.height < fuel) :
    ∃ vs h', btreeRecursion g sz fuel p h = .ok h' ∧ visitBtree g sz fuel p h = .ok (vs, h') ∧
      (vs.map Visit.object).Perm t.preorder := by
  have hyields := visitBtree_spec (g := g) (E := fun _ ↦ fuel ≤ t.height) hw hsz hs
    (fun _ hq ↦ hq) L hl fun he ↦ he
  obtain ⟨⟨vs, h'⟩, hv, -, hvs, -⟩ :=
    hyields.exists_ok fun _ he ↦ absurd hf (Nat.not_lt.mpr he)
  have hobj : vs.map Visit.object = t.inversePreorder := by
    rw [hvs, List.map_map]
    exact List.map_id _
  refine ⟨vs, h', ?_, hv, ?_⟩
  · rw [← map_visitBtree, hv]
    rfl
  · rw [hobj]
    exact inversePreorder_perm t

/-- The height of a tree is the depth of the recursions over it. -/
theorem nestsTo_height (hsz : 16 ≤ sz.toNat) : NestsTo A sz p t t.height := by
  constructor
  · intro g hw hs h fuel L hl
    constructor
    · intro hok
      have hv := visitBtree_spec (g := g) (E := fun _ ↦ fuel ≤ t.height) hw hsz hs
        (fun _ hq ↦ hq) L hl fun he ↦ he
      obtain ⟨h', hok⟩ := hok
      rw [← map_visitBtree] at hok
      cases hr : visitBtree g sz fuel p h with
      | error e => rw [hr] at hok; cases hok
      | ok r =>
        rw [hr] at hv
        exact hv.1
    · intro hf
      obtain ⟨-, h', hok, -⟩ := exists_visits hsz hw hs L hl hf
      exact ⟨h', hok⟩
  · intro h fuel rest hp hl
    have hd := deallocateSubtreeRecursion_spec (A := A) (E := fun _ ↦ fuel ≤ t.height) hsz hl hp
      fun he ↦ he
    constructor
    · intro hok
      obtain ⟨h', hok⟩ := hok
      rw [hok] at hd
      exact hd.1
    · intro hf
      obtain ⟨h', hok, -⟩ := hd.exists_ok fun _ he ↦ absurd hf (Nat.not_lt.mpr he)
      exact ⟨h', hok⟩

/-- `build_tree_recursion` returns if its requests are served, and then has built a balanced
tree in preorder. -/
theorem buildTreeRecursion_builtTree (A : Allocator) (hsz : sizeofBTObject ≤ sz) {nelem : Nat}
    (h1 : 1 ≤ nelem) (hn : nelem < 2 ^ 32) (h : Heap)
    (hm : buildTreeRecursion A sz nelem h ≠ .error .outOfMemory) :
    ∃ p h' t, buildTreeRecursion A sz nelem h = .ok (p, h') ∧
      BuiltTree A sz nelem h h' p t := by
  have hsz : 16 ≤ sz.toNat := hsz
  obtain ⟨⟨p, h'⟩, hok, t, hnum, hb, hl, H⟩ :=
    (buildTreeRecursion_spec (A := A) (E := (· = .outOfMemory)) rfl hsz nelem hn h).exists_ok
      (by rintro _ rfl; exact hm)
  have L := layout_of_grows H.grows
  have hheight : t.height = nelem.log2 + 1 := by
    rw [hb.height, hnum, size_eq_log2 h1]
  refine ⟨p, h', t, hok, hl, hnum, L.nodup (by omega), ?_, L, H.grows.live, hb, hheight, ?_⟩
  · rw [H.allocated_since, List.reverse_reverse]
  · rw [← hheight]
    exact nestsTo_height hsz

private theorem buildTreeRecursion_zero (A : Allocator) (sz : UInt64) (h : Heap) :
    buildTreeRecursion A sz 0 h = .ok (0, h) := by
  rw [buildTreeRecursion, if_pos rfl]
  rfl

private theorem buildTreeRecursion_one (A : Allocator) (sz : UInt64) (h : Heap) :
    buildTreeRecursion A sz 1 h = do
      let (t, h) ← allocate A h sz
      let h ← storeLink h t.toNat 0
      let h ← storeLink h (t.toNat + 8) 0
      return (t, h) := by
  rw [buildTreeRecursion, if_neg (by decide)]
  simp only [Nat.sub_self, Nat.zero_div, buildTreeRecursion_zero]
  rfl

/-- A root with one node on either side. -/
theorem buildTreeRecursion_builtTree_three : ∃ p h' t,
    buildTreeRecursion bumpAllocator 16 3 .empty = .ok (p, h') ∧
      BuiltTree bumpAllocator 16 3 .empty h' p t := by
  have hok : (buildTreeRecursion bumpAllocator 16 3 .empty).isOk = true := by
    rw [buildTreeRecursion, if_neg (by decide)]
    simp only [Nat.reduceSub, Nat.reduceDiv, buildTreeRecursion_one]
    decide
  have hm : buildTreeRecursion bumpAllocator 16 3 .empty ≠ .error .outOfMemory := by
    intro he
    rw [he] at hok
    cases hok
  exact buildTreeRecursion_builtTree bumpAllocator (by decide) (by decide) (by decide) .empty hm

/-- `allocate_optimal_btree` returns if its request is served, and then has linked every
object of the array once; a traversal visits each of them once. -/
theorem allocateOptimalBtree_builtArray (A : Allocator) (hsz : sizeofBTObject ≤ sz)
    {nelem : UInt64} (h1 : 1 ≤ nelem.toNat) (hn : 2 * nelem.toNat < 2 ^ 31)
    (hm : sz.toNat * nelem.toNat < 2 ^ 64) (h : Heap)
    (ha : allocateOptimalBtree A h sz nelem ≠ .error .outOfMemory) :
    ∃ start h' t, allocateOptimalBtree A h sz nelem = .ok (start, h') ∧
      BuiltArray sz nelem.toNat h' start t ∧
      ∀ g : GOptions, -100 ≤ g.writeAccessRatio.toInt → sz.toNat < 2 ^ 31 →
        ∀ fuel, nelem.toNat.log2 + 1 < fuel → ∃ vs h'',
          traverseBtreePreorder g sz fuel start h' = .ok h'' ∧
          visitBtree g sz fuel start h' = .ok (vs, h'') ∧ vs.length = nelem.toNat ∧
          (vs.map Visit.object).Nodup ∧
          (vs.map Visit.object).Perm ((List.range nelem.toNat).map (elementAt start sz)) := by
  have hsz : 16 ≤ sz.toNat := hsz
  have hp : 0 < sz.toNat := by omega
  obtain ⟨⟨start, h'⟩, hok, -, hle, hlinks, hl, H⟩ :=
    (allocateOptimalBtree_spec (A := A) (E := (· = .outOfMemory)) rfl h hsz hm h1 hn).exists_ok
      (by rintro _ rfl; exact ha)
  have L := layout_of_grows_array hle hp H
  have hnd := L.nodup hp
  have hperm : ((arrayTree nelem.toNat 0).map (elementAt start sz)).preorder.Perm
      ((List.range nelem.toNat).map (elementAt start sz)) := by
    rw [preorder_map]
    exact (preorder_arrayTree_perm _).map _
  have hheight : ((arrayTree nelem.toNat 0).map (elementAt start sz)).height =
      nelem.toNat.log2 + 1 := by
    rw [height_map, height_arrayTree_zero h1]
  generalize (arrayTree nelem.toNat 0).map (elementAt start sz) = t at hl hperm hheight
  refine ⟨start, h', t, hok, ⟨hle, ?_, hl, hperm, hperm.nodup_iff.mpr hnd, hheight,
    L.perm hperm.symm⟩, ?_⟩
  · intro i hi k hk
    obtain ⟨hleft, hright⟩ := hlinks i hi
    obtain rfl | rfl := List.mem_pair.mp hk
    · rw [Nat.add_zero, hleft]
      split
      · next hlt => exact .inr ⟨_, by omega, hlt, rfl⟩
      · exact .inl rfl
    · rw [hright]
      split
      · next hlt => exact .inr ⟨_, by omega, hlt, rfl⟩
      · exact .inl rfl
  · intro g hw hs fuel hf
    obtain ⟨vs, h'', hok, hv, hvs⟩ :=
      exists_visits hsz hw hs (L.perm hperm.symm) hl (by rw [hheight]; exact hf)
    have hvp := hvs.trans hperm
    refine ⟨vs, h'', hok, hv, ?_, hvp.nodup_iff.mpr hnd, hvp⟩
    rw [← List.length_map (f := Visit.object), hvp.length_eq, List.length_map, List.length_range]

/-- A tree of five objects in one block, each of which is visited once. -/
theorem allocateOptimalBtree_builtArray_five : ∃ start h' t,
    allocateOptimalBtree bumpAllocator .empty 16 5 = .ok (start, h') ∧ BuiltArray 16 5 h' start t ∧
      ∃ vs h'', visitBtree GOptions.setDefaultParams 16 4 start h' = .ok (vs, h'') ∧
        (vs.map Visit.object).Perm ((List.range 5).map (elementAt start 16)) := by
  have hok : (allocateOptimalBtree bumpAllocator .empty 16 5).isOk = true := by decide
  have hm : allocateOptimalBtree bumpAllocator .empty 16 5 ≠ .error .outOfMemory := by
    intro he
    rw [he] at hok
    cases hok
  obtain ⟨start, h', t, ha, hb, hv⟩ := allocateOptimalBtree_builtArray bumpAllocator (by decide)
    (by decide : 1 ≤ (5 : UInt64).toNat) (by decide) (by decide) .empty hm
  obtain ⟨vs, h'', -, hvs, -, -, hp⟩ := hv GOptions.setDefaultParams (by decide) (by decide) 4
    (by decide)
  exact ⟨start, h', t, ha, hb, vs, h'', hvs, hp⟩

end Acdc.Objects
