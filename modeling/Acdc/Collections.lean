import Acdc.Lists
import Acdc.Trees

/-!
# Memory of collections

What `allocate_LSClass`, `traverse_LSClass` and `deallocate_LSClass`
(`src/lifetime-size-classes.c:465–575`) do to memory; their accounting is that of
`Acdc.allocateLSClass` and `Acdc.deallocateLSClass`. A collection between the two is a list
or a tree of all its objects in the regions that it has allocated. Traversals keep it, since
they write payloads only, and a deallocation frees these regions.
-/

namespace Acdc

/-- Whether the traversal of a type has one access counter for all visits. -/
def LifetimeSizeClassType.countsVisits : LifetimeSizeClassType → Bool
  | .list | .optimalList => true
  | _ => false

end Acdc

namespace Acdc.Objects

open Fallible Heap Memory BinaryTree ArrayTree

variable (A : Allocator) (g : GOptions)

/-- `src/lifetime-size-classes.c:465–495`. The two false sharing types return no descriptor,
which the caller dereferences. -/
def allocateLSClass (h : Heap) (type : LifetimeSizeClassType) (sz nelem : UInt64) :
    Except Stop (UInt64 × Heap) := do
  assert (0 < sz)
  assert (sz < bitZeroShl g.maxObjectSc)
  assert (0 < nelem)
  match type with
  | .list => allocateList A h sz nelem
  | .optimalList => allocateOptimalListUnaligned A h sz nelem
  | .btree => allocateBtree A h sz nelem
  | .optimalBtree => allocateOptimalBtree A h sz nelem
  | .falseSharing | .optimalFalseSharing => .error .undefined

/-- `src/lifetime-size-classes.c:497–548`. -/
def deallocateLSClass (fuel : Nat) (d : LSClass) (start : UInt64) (h : Heap) :
    Except Stop Heap := do
  assert (d.referenceCounter = 0)
  assert (0 < d.objectSize)
  assert (d.objectSize < bitZeroShl g.maxObjectSc)
  assert (0 < d.numObjects)
  match d.type with
  | .list => deallocateList A fuel start h
  | .optimalList => deallocateOptimalListUnaligned A h start
  | .btree => deallocateBtree A fuel start h
  | .optimalBtree => deallocateOptimalBtree A h start
  | .falseSharing | .optimalFalseSharing => return h

/-- `src/lifetime-size-classes.c:550–575`. -/
def traverseLSClass (fuel : Nat) (d : LSClass) (start : UInt64) (h : Heap) : Except Stop Heap :=
  match d.type with
  | .list | .optimalList => traverseList g d.objectSize fuel 0 start h
  | .btree => traverseBtreeInversePreorder g d.objectSize fuel start h
  | .optimalBtree => traverseBtreePreorder g d.objectSize fuel start h
  | .falseSharing | .optimalFalseSharing => return h

/-- `traverse_LSClass` with its visits, in order. -/
def visitLSClass (fuel : Nat) (d : LSClass) (start : UInt64) (h : Heap) :
    Except Stop (List Visit × Heap) :=
  match d.type with
  | .list | .optimalList => visitList g d.objectSize fuel 0 start h
  | .btree | .optimalBtree => visitBtree g d.objectSize fuel start h
  | .falseSharing | .optimalFalseSharing => return ([], h)

/-- Size of the links of an object. -/
def headerSize : LifetimeSizeClassType → UInt64
  | .list | .optimalList => sizeofLObject
  | _ => sizeofBTObject

/-- A pointer to a list or to a tree of the objects. -/
def Linked (m : Memory) (start : UInt64) (objs : List UInt64) : LifetimeSizeClassType → Prop
  | .list | .optimalList => ListAt m start objs 0
  | .btree | .optimalBtree => ∃ t, TreeAt m start t ∧ t.preorder.Perm objs
  | .falseSharing | .optimalFalseSharing => False

/-- The order in which the objects of a collection are visited. -/
def VisitOrder (m : Memory) (start : UInt64) (qs : List UInt64) : LifetimeSizeClassType → Prop
  | .list | .optimalList => ListAt m start qs 0
  | .btree | .optimalBtree => ∃ t, TreeAt m start t ∧ qs = t.inversePreorder
  | .falseSharing | .optimalFalseSharing => False

/-- The access counter at visit `i`. The lists count their visits, the trees do not. -/
def accessCounter (type : LifetimeSizeClassType) (i : Nat) : Nat :=
  if type.countsVisits then i else 0

/-- The regions that a builder allocates: one for each object, or one for all of them. -/
def regions (d : LSClass) (start : UInt64) (objs : List UInt64) : List Region :=
  match d.type with
  | .optimalList | .optimalBtree => [⟨start.toNat, d.objectSize.toNat * d.numObjects.toNat⟩]
  | _ => objs.map (object d.objectSize)

/-- How a builder arranges the objects, from `h` to `h'`. -/
def Arranged (d : LSClass) (start : UInt64) (objs : List UInt64) (h h' : Heap) : Prop :=
  match d.type with
  | .list => (allocated (since h h')).reverse = objs.map (object d.objectSize)
  | .optimalList => start.toNat + d.objectSize.toNat * d.numObjects.toNat ≤ 2 ^ 64 ∧
      objs = (List.range d.numObjects.toNat).map (elementAt start d.objectSize)
  | .btree => ∃ t, TreeAt h'.bytes start t ∧ objs = t.preorder
  | .optimalBtree => 0 < start.toNat ∧
      start.toNat + d.objectSize.toNat * d.numObjects.toNat ≤ 2 ^ 64 ∧ TreeAt h'.bytes start
        ((arrayTree d.numObjects.toNat 0).map (elementAt start d.objectSize))
  | .falseSharing | .optimalFalseSharing => False

/-- A collection in memory. -/
structure Collection (d : LSClass) (start : UInt64) (objs : List UInt64) (h : Heap) : Prop where
  length : objs.length = d.numObjects.toNat
  linked : Linked h.bytes start objs d.type
  layout : Layout d.objectSize objs h
  live : ∃ rest, h.live.Perm (regions d start objs ++ rest)
  within : ∀ o ∈ objs, ∃ r ∈ regions d start objs, (object d.objectSize o).Within r

section

variable {A} {g} {d : LSClass} {start : UInt64} {objs : List UInt64} {h h' : Heap}
  {E : Stop → Prop}

/-- The regions of a collection are as large as its objects together. -/
theorem sum_regions (hl : objs.length = d.numObjects.toNat) :
    ((regions d start objs).map Region.size).sum =
      d.objectSize.toNat * d.numObjects.toNat := by
  have hsum : ((objs.map (object d.objectSize)).map Region.size).sum =
      d.objectSize.toNat * d.numObjects.toNat := by
    rw [List.map_map, ← hl, Nat.mul_comm]
    exact (congrArg List.sum List.map_const').trans List.sum_replicate_nat
  unfold regions
  split
  · exact Nat.add_zero _
  · exact Nat.add_zero _
  · exact hsum

/-- A collection of objects that are allocated one by one. -/
theorem Collection.of_objects (hr : regions d start objs = objs.map (object d.objectSize))
    (hlen : objs.length = d.numObjects.toNat) (hl : Linked h'.bytes start objs d.type)
    (H : Grows (objs.map (object d.objectSize)) (fun _ ↦ False) h h') :
    Collection d start objs h' ∧ Grows (regions d start objs) (fun _ ↦ False) h h' := by
  rw [hr]
  refine ⟨⟨hlen, hl, layout_of_grows H, ⟨h.live, hr ▸ H.live⟩, ?_⟩, H⟩
  intro o ho
  rw [hr]
  exact ⟨_, List.mem_map_of_mem ho, .refl _⟩

/-- A collection of objects that are the elements of one array. -/
theorem Collection.of_array
    (hr : regions d start ((List.range d.numObjects.toNat).map (elementAt start d.objectSize)) =
      [⟨start.toNat, d.objectSize.toNat * d.numObjects.toNat⟩])
    (hs : 0 < d.objectSize.toNat)
    (hle : start.toNat + d.objectSize.toNat * d.numObjects.toNat ≤ 2 ^ 64)
    (hl : Linked h'.bytes start
      ((List.range d.numObjects.toNat).map (elementAt start d.objectSize)) d.type)
    (harr : Arranged d start
      ((List.range d.numObjects.toNat).map (elementAt start d.objectSize)) h h')
    (H : Grows [⟨start.toNat, d.objectSize.toNat * d.numObjects.toNat⟩] (fun _ ↦ False) h h') :
    ∃ objs, Collection d start objs h' ∧ Grows (regions d start objs) (fun _ ↦ False) h h' ∧
      Arranged d start objs h h' := by
  refine ⟨(List.range d.numObjects.toNat).map (elementAt start d.objectSize), ⟨?_, hl, ?_, ?_, ?_⟩,
    hr ▸ H, harr⟩
  · rw [List.length_map, List.length_range]
  · exact layout_elementAt hle hs ⟨_, H.new_mem_live List.mem_cons_self, .refl _⟩
  · rw [hr]
    exact ⟨h.live, H.live⟩
  · intro o ho
    obtain ⟨i, hi, rfl⟩ := List.mem_map.mp ho
    have hi := List.mem_range.mp hi
    have hm : d.objectSize.toNat * (i + 1) ≤ d.objectSize.toNat * d.numObjects.toNat :=
      Nat.mul_le_mul_left _ hi
    rw [Nat.mul_succ] at hm
    refine ⟨_, hr ▸ List.mem_cons_self, ?_⟩
    simp only [Region.Within, object, toNat_elementAt hle hs hi]
    omega

/-- `allocate_LSClass` builds a collection. -/
theorem allocateLSClass_spec (hE : E .outOfMemory) (hd : d.Built g)
    (hs : 16 ≤ d.objectSize.toNat) (hs' : d.objectSize.toNat < 2 ^ 31)
    (hn : 2 * d.numObjects.toNat < 2 ^ 31) (h : Heap) :
    Yields E (allocateLSClass A g h d.type d.objectSize d.numObjects) fun (start, h') ↦
      ∃ objs, Collection d start objs h' ∧ Grows (regions d start objs) (fun _ ↦ False) h h' ∧
        Arranged d start objs h h' := by
  have h0 : 0 < d.numObjects.toNat := UInt64.lt_iff_toNat_lt.mp hd.num_pos
  unfold allocateLSClass
  simp only [assert, hd.size_pos, hd.size_lt, hd.num_pos, ite_true, bind, Except.bind]
  have hb := hd.hasBuilder
  cases ht : d.type with
  | list =>
    apply (allocateList_spec hE h (by omega) h0 (by omega)).imp
    rintro ⟨start, h'⟩ ⟨objs, hlen, hl, H⟩
    obtain ⟨C, HC⟩ := Collection.of_objects (d := d) (by simp only [regions, ht]) hlen
      (by rw [ht]; exact hl) H.grows
    refine ⟨objs, C, HC, ?_⟩
    simp only [Arranged, ht, H.allocated_since, List.reverse_reverse]
  | optimalList =>
    apply (allocateOptimalListUnaligned_spec hE h (by omega) (size_mul_lt hs' (by omega)) h0
      (by omega)).imp
    rintro ⟨start, h'⟩ ⟨hle, hl, H⟩
    refine Collection.of_array ?_ (by omega) hle ?_ ?_ H
    · simp only [regions, ht]
    · rw [ht]
      exact hl
    · simp only [Arranged, ht]
      exact ⟨hle, trivial⟩
  | btree =>
    apply (allocateBtree_spec hE h hs (by omega)).imp
    rintro ⟨start, h'⟩ ⟨t, hnum, -, hl, H⟩
    obtain ⟨C, HC⟩ := Collection.of_objects (d := d) (by simp only [regions, ht])
      ((length_preorder t).trans hnum) (by rw [ht]; exact ⟨t, hl, .refl _⟩) H.grows
    refine ⟨t.preorder, C, HC, ?_⟩
    simp only [Arranged, ht]
    exact ⟨t, hl, rfl⟩
  | optimalBtree =>
    apply (allocateOptimalBtree_spec hE h hs (size_mul_lt hs' (by omega)) h0 hn).imp
    rintro ⟨start, h'⟩ ⟨hs0, hle, -, hl, H⟩
    refine Collection.of_array ?_ (by omega) hle ?_ ?_ H
    · simp only [regions, ht]
    · rw [ht]
      refine ⟨_, hl, ?_⟩
      rw [preorder_map]
      exact (preorder_arrayTree_perm _).map _
    · simp only [Arranged, ht]
      exact ⟨hs0, hle, hl⟩
  | falseSharing => rw [ht] at hb; cases hb
  | optimalFalseSharing => rw [ht] at hb; cases hb

/-- An allocation that succeeds has passed its assertions and found a builder. -/
theorem built_of_ok (ha : allocateLSClass A g h d.type d.objectSize d.numObjects =
    .ok (start, h')) : d.Built g := by
  unfold allocateLSClass assert at ha
  split at ha
  · next h0 =>
    split at ha
    · next hlt =>
      split at ha
      · next hn =>
        refine ⟨h0, hlt, hn, ?_⟩
        cases ht : d.type with
        | list | optimalList | btree | optimalBtree => rfl
        | falseSharing | optimalFalseSharing => rw [ht] at ha; cases ha
      · cases ha
    · cases ha
  · cases ha

/-- An allocation that succeeds builds a collection. -/
theorem exists_collection (hs : 16 ≤ d.objectSize.toNat) (hs' : d.objectSize.toNat < 2 ^ 31)
    (hn : 2 * d.numObjects.toNat < 2 ^ 31)
    (ha : allocateLSClass A g h d.type d.objectSize d.numObjects = .ok (start, h')) :
    ∃ objs, Collection d start objs h' ∧ Arranged d start objs h h' := by
  have hspec := allocateLSClass_spec (A := A) (E := fun _ ↦ True) trivial (built_of_ok ha) hs hs'
    hn h
  rw [ha] at hspec
  obtain ⟨objs, C, -, harr⟩ := hspec
  exact ⟨objs, C, harr⟩

/-- The result of a computation that is evaluated to one. -/
theorem exists_of_isOk {x : Except Stop (UInt64 × Heap)} (hx : x.isOk = true) :
    ∃ start h, x = .ok (start, h) := by
  cases x with
  | error e => cases hx
  | ok p => exact ⟨p.1, p.2, rfl⟩

/-- The memory of a collection whose descriptor the accounting has made. -/
theorem collection_of_descriptor {σ : Type} {i : Nat} {mc mc' : MContext σ}
    {type : LifetimeSizeClassType} {sz nelem : UInt64} {lifetime : UInt32} {c : Slot}
    (ha : Acdc.allocateLSClass g i mc type sz nelem lifetime = .ok (c, d, mc'))
    (hs : 16 ≤ sz.toNat) (hs' : sz.toNat < 2 ^ 31) (hn : 2 * nelem.toNat < 2 ^ 31) (h : Heap) :
    Yields (· = .outOfMemory) (allocateLSClass A g h type sz nelem) fun (start, h') ↦
      ∃ objs, Collection d start objs h' ∧
        Grows (regions d start objs) (fun _ ↦ False) h h' := by
  obtain ⟨rfl, hb, -⟩ := allocateLSClass_cases g ha
  apply (allocateLSClass_spec (E := (· = .outOfMemory)) rfl hb hs hs' hn h).imp
  rintro ⟨start, h'⟩ ⟨objs, C, H, -⟩
  exact ⟨objs, C, H⟩

/-- The objects of a collection are as large as their links. -/
theorem headerSize_le (hs : 16 ≤ d.objectSize.toNat) (type : LifetimeSizeClassType) :
    (headerSize type).toNat ≤ d.objectSize.toNat := by
  have h8 : sizeofLObject.toNat = 8 := rfl
  have h16 : sizeofBTObject.toNat = 16 := rfl
  cases type <;> simp only [headerSize] <;> omega

/-- A collection depends on the links of its objects. -/
theorem Collection.congr (C : Collection d start objs h)
    (hlive : h'.live.Perm h.live) (L : Layout d.objectSize objs h')
    (hs : SameHeaders (headerSize d.type).toNat objs h.bytes h'.bytes) :
    Collection d start objs h' where
  length := C.length
  linked := by
    have hl := C.linked
    cases ht : d.type with
    | list | optimalList =>
      rw [ht] at hl hs
      exact ListAt.congr hl le_rfl hs
    | btree | optimalBtree =>
      rw [ht] at hl hs
      obtain ⟨t, hl, hp⟩ := hl
      exact ⟨t, hl.congr le_rfl (hs.subset fun _ ↦ hp.mem_iff.mp), hp⟩
    | falseSharing | optimalFalseSharing =>
      rw [ht] at hl
      exact hl.elim
  layout := L
  live := by
    obtain ⟨rest, hp⟩ := C.live
    exact ⟨rest, hlive.trans hp⟩
  within := C.within

/-- The visits are those of the traversal. -/
theorem map_visitLSClass (g : GOptions) (fuel : Nat) (d : LSClass) (start : UInt64) (h : Heap) :
    (visitLSClass g fuel d start h).map Prod.snd = traverseLSClass g fuel d start h := by
  unfold visitLSClass traverseLSClass
  cases d.type with
  | list | optimalList => exact map_visitList ..
  | btree | optimalBtree => exact map_visitBtree ..
  | falseSharing | optimalFalseSharing => rfl

/-- A traversal visits the objects in the order of their links. It writes payloads of the chosen
objects only. -/
theorem visitLSClass_spec (hw : -100 ≤ g.writeAccessRatio.toInt)
    (hs : headerSize d.type ≤ d.objectSize) (hs' : d.objectSize.toNat < 2 ^ 31) {fuel : Nat}
    (hf : d.numObjects.toNat < fuel)
    (hE : d.type.countsVisits = true → 2 ^ 31 ≤ d.numObjects.toNat → E .undefined)
    (C : Collection d start objs h) :
    Yields E (visitLSClass g fuel d start h) fun (vs, h') ↦ ∃ qs,
      VisitOrder h.bytes start qs d.type ∧ qs.Perm objs ∧
      (d.type.countsVisits = true → d.numObjects.toNat < 2 ^ 31) ∧
      vs = qs.zipIdx.map (fun (q, i) ↦ ⟨q, writesTo g (accessCounter d.type i)⟩) ∧
      Grows [] (InWritten d.objectSize (headerSize d.type) vs) h h' := by
  have hl := C.linked
  have hlen := C.length
  unfold visitLSClass
  cases ht : d.type with
  | list | optimalList =>
    rw [ht] at hl hs hE
    apply (visitList_spec hw hs hs' (fun _ hq ↦ hq) C.layout hl (by omega)
      (fun he ↦ hE rfl (by omega)) (by omega)).imp
    rintro ⟨vs, h'⟩ ⟨hb, hvs, H⟩
    exact ⟨objs, hl, .refl _, fun _ ↦ by omega, hvs, H⟩
  | btree | optimalBtree =>
    rw [ht] at hl hs
    obtain ⟨t, hl, hp⟩ := hl
    have hh := t.height_le_numNodes
    rw [← length_preorder, hp.length_eq, hlen] at hh
    apply (visitBtree_spec hw hs hs' (fun _ hq ↦ hp.mem_iff.mp hq) C.layout hl
      (fun he ↦ by omega)).imp
    rintro ⟨vs, h'⟩ ⟨-, hvs, H⟩
    refine ⟨t.inversePreorder, ⟨t, hl, rfl⟩, t.inversePreorder_perm.trans hp, nofun, ?_, H⟩
    rw [hvs]
    exact (congrArg (List.map _) (List.zipIdx_map_fst 0 t.inversePreorder)).symm.trans
      List.map_map
  | falseSharing | optimalFalseSharing => rw [ht] at hl; exact hl.elim

/-- A traversal writes payloads of the collection only, and keeps it. -/
theorem traverseLSClass_spec (hw : -100 ≤ g.writeAccessRatio.toInt)
    (hs : headerSize d.type ≤ d.objectSize) (hs' : d.objectSize.toNat < 2 ^ 31)
    (hn : d.numObjects.toNat < 2 ^ 31) {fuel : Nat} (hf : d.numObjects.toNat < fuel)
    (C : Collection d start objs h) :
    Yields E (traverseLSClass g fuel d start h)
      (Grows [] (InPayload d.objectSize (headerSize d.type) objs) h) := by
  rw [← map_visitLSClass]
  apply Yields.map
  apply (visitLSClass_spec hw hs hs' hf (fun _ he ↦ by omega) C).imp
  rintro ⟨vs, h'⟩ ⟨qs, -, hp, -, hvs, H⟩
  apply H.mono
  intro x hx
  apply hx.inPayload
  intro v hv
  rw [hvs] at hv
  obtain ⟨⟨q, i⟩, hq, rfl⟩ := List.mem_map.mp hv
  exact hp.mem_iff.mp (List.fst_mem_of_mem_zipIdx hq)

/-- A run that writes payloads of the collection only keeps it. -/
theorem Collection.grows (C : Collection d start objs h) (hs : 16 ≤ d.objectSize.toNat)
    (H : Grows [] (InPayload d.objectSize (headerSize d.type) objs) h h') :
    Collection d start objs h' ∧
      SameHeaders (headerSize d.type).toNat objs h.bytes h'.bytes := by
  have hle := headerSize_le hs d.type
  have hsame : SameHeaders (headerSize d.type).toNat objs h.bytes h'.bytes :=
    C.layout.sameHeaders H hle fun o ho x hx hx' ↦ C.layout.not_inPayload ho hx hx' hle
  exact ⟨C.congr H.live (C.layout.grows H) hsame, hsame⟩

/-- `deallocate_LSClass` frees the regions of a collection. -/
theorem deallocateLSClass_spec (hd : d.Built g) (h0 : d.referenceCounter = 0)
    (hs : 16 ≤ d.objectSize.toNat) (hs' : d.objectSize.toNat < 2 ^ 31)
    (hn : d.numObjects.toNat < 2 ^ 31) {fuel : Nat} (hf : d.numObjects.toNat < fuel)
    (C : Collection d start objs h) :
    Yields E (deallocateLSClass A g fuel d start h) (Shrinks (regions d start objs) h) := by
  have hl := C.linked
  have hlen := C.length
  obtain ⟨rest, hp⟩ := C.live
  unfold deallocateLSClass
  simp only [assert, h0, hd.size_pos, hd.size_lt, hd.num_pos, ite_true, bind, Except.bind]
  unfold regions at hp ⊢
  cases ht : d.type with
  | list =>
    rw [ht] at hl hp
    exact deallocateList_spec (by omega) hl hp (by omega)
  | optimalList =>
    rw [ht] at hp
    exact deallocate_array_spec A (size_mul_lt hs' hn) (hp.mem_iff.mpr List.mem_cons_self)
  | btree =>
    rw [ht] at hl hp
    obtain ⟨t, hl, hpt⟩ := hl
    have hh := t.height_le_numNodes
    rw [← length_preorder, hpt.length_eq, hlen] at hh
    have hpt' : (t.preorder.map (object d.objectSize)).Perm (objs.map (object d.objectSize)) :=
      hpt.map _
    apply (deallocateSubtreeRecursion_spec hs hl (hp.trans (hpt'.symm.append_right rest))
      fun he ↦ by omega).imp
    rintro h' ⟨-, H⟩
    exact H.perm hpt'
  | optimalBtree =>
    rw [ht] at hp
    exact deallocate_array_spec A (size_mul_lt hs' hn) (hp.mem_iff.mpr List.mem_cons_self)
  | falseSharing => rw [ht] at hl; exact hl.elim
  | optimalFalseSharing => rw [ht] at hl; exact hl.elim

end

/-! ### Block for block -/

/-- The memory of a collection from its allocation (`h` to `h₁`) over traversals (to `h₂`)
to its deallocation (to `h₃`). -/
structure BlockForBlock (d : LSClass) (objs : List UInt64) (h h₁ h₂ h₃ : Heap) : Prop where
  -- the blocks that are requested, and the objects in them
  total : ((allocated (since h h₁)).map Region.size).sum =
    d.objectSize.toNat * d.numObjects.toNat
  builds_only : freed (since h h₁) = []
  length : objs.length = d.numObjects.toNat
  apart : objs.Pairwise fun o o' ↦ (object d.objectSize o).Apart (object d.objectSize o')
  within : ∀ o ∈ objs, ∃ r ∈ allocated (since h h₁), (object d.objectSize o).Within r
  -- the traversals
  writes : ∀ r, .store r ∈ since h₁ h₂ → ∀ x, r.Has x →
    InPayload d.objectSize (headerSize d.type) objs x
  links : SameHeaders (headerSize d.type).toNat objs h₁.bytes h₂.bytes
  traverses_only : allocated (since h₁ h₂) = [] ∧ freed (since h₁ h₂) = []
  -- the deallocation
  frees : (freed (since h₂ h₃)).Perm (allocated (since h h₁))
  frees_once : (freed (since h₂ h₃)).Nodup
  frees_only : allocated (since h₂ h₃) = []
  noUseAfterFree : NoUseAfterFree (since h₂ h₃)
  live : h₃.live.Perm h.live

/-- From the specifications of the three functions. -/
theorem BlockForBlock.of_runs {d : LSClass} {start : UInt64} {objs : List UInt64}
    {h h₁ h₂ h₃ : Heap} (hs : 16 ≤ d.objectSize.toNat) (C : Collection d start objs h₁)
    (H₁ : Grows (regions d start objs) (fun _ ↦ False) h h₁)
    (H₂ : Grows [] (InPayload d.objectSize (headerSize d.type) objs) h₁ h₂)
    (H₃ : Shrinks (regions d start objs) h₂ h₃) : BlockForBlock d objs h h₁ h₂ h₃ := by
  obtain ⟨l₁, hl₁, ha₁, hf₁, -⟩ := H₁.log
  obtain ⟨l₂, hl₂, ha₂, hf₂, hs₂⟩ := H₂.log
  obtain ⟨l₃, hl₃, hf₃, ha₃, -, hu₃⟩ := H₃.log
  have hlive : (regions d start objs ++ h₃.live).Perm (regions d start objs ++ h.live) :=
    H₃.live.symm.trans (H₂.live.trans H₁.live)
  have hnd : (regions d start objs).Nodup :=
    (List.nodup_append.mp (H₃.live.nodup_iff.mp h₂.nodup_live)).1
  refine ⟨?_, ?_, C.length, C.layout.apart, ?_, ?_, (C.grows hs H₂).2, ?_, ?_, ?_, ?_, ?_, ?_⟩
  · rw [since_eq hl₁, (ha₁.map _).sum_nat]
    exact sum_regions C.length
  · rw [since_eq hl₁, hf₁]
  · intro o ho
    obtain ⟨r, hr, hw⟩ := C.within o ho
    rw [since_eq hl₁]
    exact ⟨r, ha₁.mem_iff.mpr hr, hw⟩
  · intro r hr x hx
    rw [since_eq hl₂] at hr
    obtain hw | ⟨s, hs, -⟩ := hs₂ r hr x hx
    · exact hw
    · cases hs
  · rw [since_eq hl₂]
    exact ⟨List.perm_nil.mp ha₂, hf₂⟩
  · rw [since_eq hl₃, since_eq hl₁]
    exact hf₃.trans ha₁.symm
  · rw [since_eq hl₃]
    exact hf₃.nodup_iff.mpr hnd
  · rw [since_eq hl₃, ha₃]
  · rw [since_eq hl₃]
    exact hu₃
  · exact (List.perm_append_left_iff _).mp hlive

/-- For every type with a builder, an allocation that is served and any number of traversals
are followed by a deallocation that frees the allocated blocks. -/
theorem blockForBlock (A : Allocator) (g : GOptions) {d : LSClass} (hd : d.Built g)
    (h0 : d.referenceCounter = 0) (hs : sizeofBTObject ≤ d.objectSize)
    (hs' : d.objectSize.toNat < 2 ^ 31) (hn : 2 * d.numObjects.toNat < 2 ^ 31) (h : Heap)
    (hm : allocateLSClass A g h d.type d.objectSize d.numObjects ≠ .error .outOfMemory) :
    ∃ start h₁ objs, allocateLSClass A g h d.type d.objectSize d.numObjects = .ok (start, h₁) ∧
      ∀ gs : List GOptions,
        (∀ g' ∈ gs, 0 ≤ g'.writeAccessRatio.toInt ∧ g'.writeAccessRatio.toInt ≤ 100) →
        ∀ fuel, d.numObjects.toNat < fuel → ∃ h₂ h₃,
          gs.foldlM (fun h g' ↦ traverseLSClass g' fuel d start h) h₁ = .ok h₂ ∧
          deallocateLSClass A g fuel d start h₂ = .ok h₃ ∧ BlockForBlock d objs h h₁ h₂ h₃ := by
  have hs : 16 ≤ d.objectSize.toNat := hs
  obtain ⟨⟨start, h₁⟩, ha, objs, C, H₁, -⟩ :=
    (allocateLSClass_spec (E := (· = .outOfMemory)) rfl hd hs hs' hn h).exists_ok
      (by rintro _ rfl; exact hm)
  refine ⟨start, h₁, objs, ha, ?_⟩
  intro gs hgs fuel hf
  have htr : Yields (fun _ ↦ False)
      (gs.foldlM (fun h g' ↦ traverseLSClass g' fuel d start h) h₁)
      (Grows [] (InPayload d.objectSize (headerSize d.type) objs) h₁) := by
    apply Yields.foldlM (.refl _ h₁)
    intro g' hg' h' H'
    have hw := (hgs g' hg').1
    apply (traverseLSClass_spec (by omega) (headerSize_le hs d.type) hs' (by omega) hf
      (C.grows hs H').1).imp
    intro h'' H''
    exact H'.step H'' fun _ hx ↦ .inl hx
  obtain ⟨h₂, ht, H₂⟩ := htr.exists_ok fun _ he ↦ he.elim
  obtain ⟨h₃, hde, H₃⟩ := (deallocateLSClass_spec (A := A) (E := fun _ ↦ False) hd h0 hs hs'
    (by omega) hf (C.grows hs H₂).1).exists_ok fun _ he ↦ he.elim
  exact ⟨h₂, h₃, ht, hde, BlockForBlock.of_runs hs C H₁ H₂ H₃⟩

/-- A tree of three objects in one block, written once. -/
theorem blockForBlock_three :
    let d : LSClass := ⟨0, 16, 1, 3, .optimalBtree, ⟨0, 0⟩⟩
    let g := GOptions.setDefaultParams
    ∃ start h₁ objs h₂ h₃,
      allocateLSClass bumpAllocator g .empty .optimalBtree 16 3 = .ok (start, h₁) ∧
      [g].foldlM (fun h g' ↦ traverseLSClass g' 4 d start h) h₁ = .ok h₂ ∧
      deallocateLSClass bumpAllocator g 4 d start h₂ = .ok h₃ ∧
      BlockForBlock d objs .empty h₁ h₂ h₃ := by
  intro d g
  have hok : (allocateLSClass bumpAllocator g .empty .optimalBtree 16 3).isOk = true := by decide
  have hm : allocateLSClass bumpAllocator g .empty d.type d.objectSize d.numObjects ≠
      .error .outOfMemory := by
    intro he
    rw [he] at hok
    cases hok
  obtain ⟨start, h₁, objs, ha, hrun⟩ := blockForBlock bumpAllocator g (d := d)
    ⟨by decide, by decide, by decide, rfl⟩ rfl (by decide) (by decide) (by decide) .empty hm
  obtain ⟨h₂, h₃, ht, hde, hb⟩ := hrun [g] (by decide) 4 (by decide)
  exact ⟨start, h₁, objs, h₂, h₃, ha, ht, hde, hb⟩

end Acdc.Objects
