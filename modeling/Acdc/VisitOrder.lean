import Acdc.WriteRatio

/-!
# Visiting orders

The order in which `traverse_LSClass` (`src/lifetime-size-classes.c:550–575`) visits what
`allocate_LSClass` has linked. `btree_preorder_recursion` descends to the right subtree before
the left one (`src/lifetime-size-classes.c:456–457`), as `btree_inverse_preorder_recursion`
does.
-/

namespace Acdc.Objects

open Fallible Heap Memory BinaryTree ArrayTree

/-- The order that the traversal of a type is named for, where the builder leads from `h` to
`h'`: in order of allocation, of addresses, in inverse preorder and in preorder. -/
def NamedOrder (d : LSClass) (start : UInt64) (h h' : Heap) (qs : List UInt64) : Prop :=
  match d.type with
  | .list => qs.map (object d.objectSize) = (allocated (since h h')).reverse
  | .optimalList => qs.map UInt64.toNat =
      (List.range d.numObjects.toNat).map fun i ↦ start.toNat + d.objectSize.toNat * i
  | .btree => ∃ t, TreeAt h'.bytes start t ∧ qs = t.inversePreorder
  | .optimalBtree => ∃ t, TreeAt h'.bytes start t ∧ qs = t.preorder
  | .falseSharing | .optimalFalseSharing => False

/-- Every object of a collection is visited once, and in the order that the traversal is named
for. -/
structure VisitsInOrder (d : LSClass) (start : UInt64) (h h' : Heap) (vs : List Visit) :
    Prop where
  once : ∃ objs, Collection d start objs h' ∧ objs.Nodup ∧ (vs.map Visit.object).Perm objs
  order : NamedOrder d start h h' (vs.map Visit.object)

variable {A : Allocator} {g : GOptions} {d : LSClass} {start : UInt64} {objs qs : List UInt64}
  {h h₁ h₂ : Heap} {fuel : Nat}

/-- The order of the visits depends on the links. -/
theorem VisitOrder.congr {m m' : Memory} {type : LifetimeSizeClassType}
    (hv : VisitOrder m start qs type) (hs : SameHeaders (headerSize type).toNat qs m m') :
    VisitOrder m' start qs type := by
  cases type with
  | list | optimalList => exact ListAt.congr hv le_rfl hs
  | btree | optimalBtree =>
    obtain ⟨t, hl, rfl⟩ := hv
    refine ⟨t, hl.congr le_rfl (hs.subset fun q hq ↦ ?_), rfl⟩
    exact t.inversePreorder_perm.mem_iff.mpr hq
  | falseSharing | optimalFalseSharing => exact hv

-- The visits of a collection are in the order that they are named for, unless they are those
-- of an array with two children of its root.
private theorem namedOrder_iff (hs : 0 < d.objectSize.toNat) (C : Collection d start objs h₁)
    (harr : Arranged d start objs h h₁) (hv : VisitOrder h₁.bytes start qs d.type) :
    NamedOrder d start h h₁ qs ↔ d.type ≠ .optimalBtree ∨ d.numObjects.toNat ≤ 2 := by
  have hl := C.linked
  unfold NamedOrder
  unfold Arranged at harr
  cases ht : d.type with
  | list =>
    rw [ht] at hl hv harr
    rw [hv.unique hl]
    exact iff_of_true harr.symm (.inl nofun)
  | optimalList =>
    rw [ht] at hl hv harr
    obtain ⟨hle, hobjs⟩ := harr
    have hmap : qs.map UInt64.toNat =
        (List.range d.numObjects.toNat).map fun i ↦ start.toNat + d.objectSize.toNat * i := by
      rw [hv.unique hl, hobjs, List.map_map]
      apply List.map_congr_left
      intro i hi
      exact toNat_elementAt hle hs (List.mem_range.mp hi)
    exact iff_of_true hmap (.inl nofun)
  | btree =>
    rw [ht] at hv
    exact iff_of_true hv (.inl nofun)
  | optimalBtree =>
    rw [ht] at hv harr
    obtain ⟨hs0, hle, hl⟩ := harr
    obtain ⟨t, htree, rfl⟩ := hv
    obtain rfl := htree.unique hl
    have hne : 2 < d.numObjects.toNat →
        elementAt start d.objectSize 1 ≠ elementAt start d.objectSize 2 := by
      intro h2 he
      have h1 := toNat_elementAt hle hs (i := 1) (by omega)
      rw [he, toNat_elementAt hle hs h2] at h1
      omega
    rw [← inversePreorder_eq_preorder_iff hne]
    constructor
    · rintro ⟨t', ht', he⟩
      obtain rfl := ht'.unique hl
      exact .inr he
    · rintro (hf | he)
      · exact absurd rfl hf
      · exact ⟨_, hl, he⟩
  | falseSharing | optimalFalseSharing => rw [ht] at hl; exact hl.elim

section

variable (hs : sizeofBTObject ≤ d.objectSize) (hs' : d.objectSize.toNat < 2 ^ 31)
  (hn : 2 * d.numObjects.toNat < 2 ^ 31) (hf : d.numObjects.toNat < fuel)
include hs hs' hn hf

private theorem runs_spec (C : Collection d start objs h₁) {gs : List GOptions}
    (hgs : ∀ g ∈ gs, -100 ≤ g.writeAccessRatio.toInt)
    (hr : gs.foldlM (fun h g ↦ traverseLSClass g fuel d start h) h₁ = .ok h₂) :
    Collection d start objs h₂ ∧
      SameHeaders (headerSize d.type).toNat objs h₁.bytes h₂.bytes := by
  have htr : Yields (fun _ ↦ False)
      (gs.foldlM (fun h g ↦ traverseLSClass g fuel d start h) h₁)
      (Grows [] (InPayload d.objectSize (headerSize d.type) objs) h₁) := by
    apply Yields.foldlM (.refl _ h₁)
    intro g hg h' H
    apply (traverseLSClass_spec (hgs g hg) (headerSize_le hs d.type) hs' (by omega) hf
      (C.grows hs H).1).imp
    intro h'' H'
    exact H.step H' fun _ hx ↦ .inl hx
  rw [hr] at htr
  exact C.grows hs htr

private theorem traverses_inOrder_iff (C : Collection d start objs h₁)
    (harr : Arranged d start objs h h₁) {gs : List GOptions}
    (hgs : ∀ g ∈ gs, -100 ≤ g.writeAccessRatio.toInt)
    (hr : gs.foldlM (fun h g ↦ traverseLSClass g fuel d start h) h₁ = .ok h₂)
    (hw : -100 ≤ g.writeAccessRatio.toInt) :
    (∃ vs, Traverses g fuel d start h₂ vs ∧ VisitsInOrder d start h h₁ vs) ↔
      d.type ≠ .optimalBtree ∨ d.numObjects.toNat ≤ 2 := by
  have hs0 : 0 < d.objectSize.toNat := Nat.lt_of_lt_of_le (by decide) hs
  obtain ⟨C₂, hsame⟩ := runs_spec hs hs' hn hf C hgs hr
  obtain ⟨⟨vs, h₃⟩, hok, qs, hv, hp, -, hvs, -⟩ :=
    (visitLSClass_spec (g := g) (E := fun _ ↦ False) hw (headerSize_le hs d.type) hs' hf
      (fun _ he ↦ by omega) C₂).exists_ok fun _ he ↦ he.elim
  have hv₁ : VisitOrder h₁.bytes start qs d.type :=
    hv.congr (hsame.symm.subset fun _ hq ↦ hp.mem_iff.mp hq)
  have hobj : vs.map Visit.object = qs := by
    rw [hvs, List.map_map]
    exact List.zipIdx_map_fst 0 qs
  rw [← namedOrder_iff hs0 C harr hv₁, ← hobj]
  constructor
  · rintro ⟨vs', ht, H⟩
    obtain ⟨h₃', hok'⟩ := traverses_iff.mp ht
    obtain ⟨rfl, -⟩ := Prod.mk.inj (Except.ok.inj (hok'.symm.trans hok))
    exact H.order
  · intro ho
    exact ⟨vs, traverses_iff.mpr ⟨h₃, hok⟩, ⟨objs, C, C.layout.nodup hs0, hobj ▸ hp⟩, ho⟩

end

/-- After an allocation, and after any traversals, a traversal visits every object once in the
order that it is named for, unless the collection is an `OPTIMAL_BTREE` of more than two objects.
-/
theorem visitsInOrder_iff {o : GOptions} (hs : sizeofBTObject ≤ d.objectSize)
    (hs' : d.objectSize.toNat < 2 ^ 31) (hn : 2 * d.numObjects.toNat < 2 ^ 31)
    (ha : allocateLSClass A o h d.type d.objectSize d.numObjects = .ok (start, h₁))
    (hf : d.numObjects.toNat < fuel) {gs : List GOptions}
    (hgs : ∀ g ∈ gs, -100 ≤ g.writeAccessRatio.toInt)
    (hr : gs.foldlM (fun h g ↦ traverseLSClass g fuel d start h) h₁ = .ok h₂)
    (hw : -100 ≤ g.writeAccessRatio.toInt) :
    (∃ vs, Traverses g fuel d start h₂ vs ∧ VisitsInOrder d start h h₁ vs) ↔
      d.type ≠ .optimalBtree ∨ d.numObjects.toNat ≤ 2 := by
  obtain ⟨objs, C, harr⟩ := exists_collection hs hs' hn ha
  exact traverses_inOrder_iff hs hs' hn hf C harr hgs hr hw

/-- A list of three objects in one block, visited in order of addresses. -/
theorem visitsInOrder_iff_three :
    let d : LSClass := ⟨0, 16, 1, 3, .optimalList, ⟨0, 0⟩⟩
    ∃ start h₁ vs, Traverses GOptions.setDefaultParams 4 d start h₁ vs ∧
      VisitsInOrder d start .empty h₁ vs := by
  intro d
  obtain ⟨start, h₁, ha⟩ := exists_of_isOk (show (allocateLSClass bumpAllocator
    GOptions.setDefaultParams .empty .optimalList 16 3).isOk = true by decide)
  have hgs : ∀ g ∈ ([] : List GOptions), -100 ≤ g.writeAccessRatio.toInt := by simp
  obtain ⟨vs, H⟩ := (visitsInOrder_iff (g := GOptions.setDefaultParams) (d := d) (by decide)
    (by decide) (by decide) ha (by decide : 3 < 4) hgs rfl (by decide)).mpr (.inl (by decide))
  exact ⟨start, h₁, vs, H⟩

/-- Of an array of three objects the third one is visited before the second one. -/
theorem not_forall_visitsInOrder :
    ¬ ∀ (A : Allocator) (g : GOptions) (d : LSClass) (start : UInt64) (h h₁ : Heap) (fuel : Nat),
      sizeofBTObject ≤ d.objectSize → d.objectSize.toNat < 2 ^ 31 →
      2 * d.numObjects.toNat < 2 ^ 31 →
      allocateLSClass A g h d.type d.objectSize d.numObjects = .ok (start, h₁) →
      d.numObjects.toNat < fuel → -100 ≤ g.writeAccessRatio.toInt →
      ∃ vs, Traverses g fuel d start h₁ vs ∧ VisitsInOrder d start h h₁ vs := by
  intro hall
  obtain ⟨start, h₁, ha⟩ := exists_of_isOk (show (allocateLSClass bumpAllocator
    GOptions.setDefaultParams .empty .optimalBtree 16 3).isOk = true by decide)
  have H := hall bumpAllocator GOptions.setDefaultParams ⟨0, 16, 1, 3, .optimalBtree, ⟨0, 0⟩⟩ start
    .empty h₁ 4 (by decide) (by decide) (by decide) ha (by decide) (by decide)
  obtain ⟨objs, C, harr⟩ := exists_collection (d := ⟨0, 16, 1, 3, .optimalBtree, ⟨0, 0⟩⟩)
    (by decide) (by decide) (by decide) ha
  have hgs : ∀ g ∈ ([] : List GOptions), -100 ≤ g.writeAccessRatio.toInt := by simp
  rw [traverses_inOrder_iff (by decide) (by decide) (by decide) (by decide) C harr hgs rfl
    (by decide)] at H
  revert H
  decide

end Acdc.Objects
