import Acdc.Collections
import Acdc.Divisors

/-!
# Collections of the null allocator

`src/alloc/nulloc.c` returns one thread-local address for every request, zeroes the word at it
and frees nothing. All objects of a collection are then the same cell, and each store of a
link is a store to every object. The functions of `src/lifetime-size-classes.c` are embedded
again, over a memory of which the two words of the cell are addressable: an object that is larger
has payload outside of them. `set_allocation_pointers` (`src/main.c:210–224`) leaves compact
allocation off for this allocator, so that only the types `LIST` and `BTREE` are built. Loops and
recursions along links run for a bounded number of turns.
-/

namespace Acdc.Nulloc

open Fallible Memory

/-! ### Allocator and objects -/

/-- `src/alloc/nulloc.c:13–16`. -/
def nullocAlloc (dummy : UInt64) (m : Memory) : UInt64 × Memory :=
  (dummy, m.store dummy.toNat 0)

/-- `src/alloc/nulloc.c:18–20`. -/
def nullocFree (m : Memory) (_ptr : UInt64) : Memory := m

/-- `src/memory.c:17–33`. -/
def allocate (dummy : UInt64) (m : Memory) (size : UInt64) : Except Stop (UInt64 × Memory) :=
  if size < Objects.sizeofObject then .error .objectTooSmall else .ok (nullocAlloc dummy m)

/-- `src/memory.c:53–55`. -/
def deallocate (m : Memory) (o : UInt64) : Memory := nullocFree m o

/-- The bytes of the two words at the address. -/
def InCell (dummy : UInt64) (a : Nat) : Prop := dummy.toNat ≤ a ∧ a < dummy.toNat + 16

instance (dummy : UInt64) (a : Nat) : Decidable (InCell dummy a) :=
  inferInstanceAs (Decidable (_ ∧ _))

/-- A load of a payload byte. -/
def loadPayload (dummy : UInt64) (m : Memory) (a : Nat) : Except Stop UInt8 :=
  if InCell dummy a then .ok (m a) else .error .undefined

/-- A store to a payload byte. -/
def storePayload (dummy : UInt64) (m : Memory) (a : Nat) (x : UInt8) : Except Stop Memory :=
  if InCell dummy a then .ok (Function.update m a x) else .error .undefined

/-- `src/lifetime-size-classes.c:20–29`. -/
def writeObject (dummy : UInt64) (m : Memory) (o size offset : UInt64) : Except Stop Memory := do
  let payload := o.toNat + offset.toNat
  let plSz ← Objects.int (size - offset).toNat
  (List.range (plSz - 1)).foldlM (fun m i ↦ do
    let x ← loadPayload dummy m (payload + i)
    storePayload dummy m (payload + (i + 1)) (x + 1)) m

/-- The writes to one element of a traversal;
`src/lifetime-size-classes.c:283–286,436–438,452–454`. -/
def writeElement (dummy : UInt64) (g : GOptions) (m : Memory) (i : Nat) (o size offset : UInt64) :
    Except Stop Memory := do
  if ← Objects.writeIthElement g i then
    (List.range g.writeIterations.toNatClampNeg).foldlM
      (fun m _ ↦ writeObject dummy m o size offset) m
  else return m

/-! ### Lists -/

/-- `src/lifetime-size-classes.c:273–289`. -/
def traverseList (dummy : UInt64) (g : GOptions) (sz : UInt64) :
    Nat → Nat → UInt64 → Memory → Except Stop Memory
  | 0, _, _, _ => .error .outOfFuel
  | fuel + 1, accessCounter, list, m =>
    if list = 0 then return m
    else do
      let m ← writeElement dummy g m accessCounter list sz sizeofLObject
      let accessCounter ← Objects.int (accessCounter + 1)
      traverseList dummy g sz fuel accessCounter (m.load list.toNat) m

/-- `src/lifetime-size-classes.c:315–336`. -/
def allocateList (dummy : UInt64) (m : Memory) (sz nelem : UInt64) :
    Except Stop (UInt64 × Memory) := do
  sizeCheck .list sz
  let (start, m) ← allocate dummy m sz
  let n ← Objects.int nelem.toNat
  let (tmp, m) ← (List.range (n - 1)).foldlM (fun p _ ↦ do
    let (next, m) ← allocate dummy p.2 sz
    let m := m.store p.1.toNat next
    return (m.load p.1.toNat, m)) (start, m)
  return (start, m.store tmp.toNat 0)

/-- `src/lifetime-size-classes.c:339–347`. -/
def deallocateList : Nat → UInt64 → Memory → Except Stop Memory
  | 0, _, _ => .error .outOfFuel
  | fuel + 1, l, m =>
    if l = 0 then return m
    else
      let n := m.load l.toNat
      deallocateList fuel n (deallocate m l)

/-! ### Trees -/

/-- `src/lifetime-size-classes.c:389–403`. -/
def buildTreeRecursion (dummy sz : UInt64) (nelem : Nat) (m : Memory) :
    Except Stop (UInt64 × Memory) :=
  if nelem = 0 then return (0, m)
  else do
    let (t, m) ← allocate dummy m sz
    let half := (nelem - 1) / 2
    let _ ← Objects.int half
    let (left, m) ← buildTreeRecursion dummy sz half m
    let m := m.store t.toNat left
    let (right, m) ← buildTreeRecursion dummy sz (nelem - 1 - half) m
    return (t, m.store (t.toNat + 8) right)
termination_by nelem

/-- `src/lifetime-size-classes.c:405–418`. -/
def allocateBtree (dummy : UInt64) (m : Memory) (sz nelem : UInt64) :
    Except Stop (UInt64 × Memory) := do
  sizeCheck .btree sz
  buildTreeRecursion dummy sz nelem.toNat m

/-- `src/lifetime-size-classes.c:420–425`. -/
def deallocateSubtreeRecursion : Nat → UInt64 → Memory → Except Stop Memory
  | 0, _, _ => .error .outOfFuel
  | fuel + 1, t, m =>
    if t = 0 then return m
    else do
      let m ← deallocateSubtreeRecursion fuel (m.load t.toNat) m
      let m ← deallocateSubtreeRecursion fuel (m.load (t.toNat + 8)) m
      return deallocate m t

/-- `src/lifetime-size-classes.c:432–442`. The access counter is a local of each call. -/
def btreeInversePreorderRecursion (dummy : UInt64) (g : GOptions) (sz : UInt64) :
    Nat → UInt64 → Memory → Except Stop Memory
  | 0, _, _ => .error .outOfFuel
  | fuel + 1, t, m =>
    if t = 0 then return m
    else do
      let m ← writeElement dummy g m 0 t sz sizeofBTObject
      let m ← btreeInversePreorderRecursion dummy g sz fuel (m.load (t.toNat + 8)) m
      btreeInversePreorderRecursion dummy g sz fuel (m.load t.toNat) m

/-! ### Collections -/

/-- `src/lifetime-size-classes.c:465–495`, for the types that are built. -/
def allocateLSClass (dummy : UInt64) (g : GOptions) (m : Memory) (type : LifetimeSizeClassType)
    (sz nelem : UInt64) : Except Stop (UInt64 × Memory) := do
  assert (0 < sz)
  assert (sz < bitZeroShl g.maxObjectSc)
  assert (0 < nelem)
  match type with
  | .list => allocateList dummy m sz nelem
  | .btree => allocateBtree dummy m sz nelem
  | _ => .error .undefined

/-- `src/lifetime-size-classes.c:497–548`, for the types that are built. -/
def deallocateLSClass (g : GOptions) (fuel : Nat) (d : LSClass) (start : UInt64) (m : Memory) :
    Except Stop Memory := do
  assert (d.referenceCounter = 0)
  assert (0 < d.objectSize)
  assert (d.objectSize < bitZeroShl g.maxObjectSc)
  assert (0 < d.numObjects)
  match d.type with
  | .list => deallocateList fuel start m
  | .btree => deallocateSubtreeRecursion fuel start m
  | _ => .error .undefined

/-- `src/lifetime-size-classes.c:550–575`, for the types that are built. -/
def traverseLSClass (dummy : UInt64) (g : GOptions) (fuel : Nat) (d : LSClass) (start : UInt64)
    (m : Memory) : Except Stop Memory :=
  match d.type with
  | .list => traverseList dummy g d.objectSize fuel 0 start m
  | .btree => btreeInversePreorderRecursion dummy g d.objectSize fuel start m
  | _ => .error .undefined

/-! ### Links -/

-- The first `n` bytes at an address are the same in both memories.
private def SameHeader (p : UInt64) (n : Nat) (m m' : Memory) : Prop :=
  ∀ x, p.toNat ≤ x → x < p.toNat + n → m' x = m x

variable {dummy sz : UInt64} {g : GOptions}

private theorem SameHeader.left {p : UInt64} {n : Nat} {m m' : Memory}
    (h : SameHeader p n m m') (hn : 8 ≤ n) : m'.load p.toNat = m.load p.toNat :=
  load_congr fun x hx hx' ↦ h x hx (by omega)

private theorem SameHeader.right {p : UInt64} {m m' : Memory} (h : SameHeader p 16 m m') :
    m'.load (p.toNat + 8) = m.load (p.toNat + 8) :=
  load_congr fun x hx hx' ↦ h x (by omega) (by omega)

/-- The payload of an object of this size is written without leaving the cell: a payload of one
byte is not written. -/
def PayloadFits (size offset : UInt64) : Prop :=
  (size - offset).toNat ≤ 1 ∨ offset.toNat + (size - offset).toNat ≤ 16

/-- The write accesses to the element 0 of a traversal are defined. -/
def WritesDefined (g : GOptions) (size offset : UInt64) : Prop :=
  g.writeAccessRatio = 0 ∨ (-100 ≤ g.writeAccessRatio.toInt ∧
    (g.writeIterations.toInt ≤ 0 ∨ PayloadFits size offset))

-- Writes inside the cell keep the header of the object.
variable (dummy) in
private theorem exists_writeObject (m : Memory) {size offset : UInt64}
    (hf : PayloadFits size offset) :
    ∃ m', writeObject dummy m dummy size offset = .ok m' ∧
      SameHeader dummy offset.toNat m m' := by
  have hi : Objects.int (size - offset).toNat = .ok (size - offset).toNat := by
    obtain hf | hf := hf <;> exact if_pos (by omega)
  have hy : Yields (fun _ : Stop ↦ False) (writeObject dummy m dummy size offset)
      (SameHeader dummy offset.toNat m) := by
    simp only [writeObject, hi, bind, Except.bind]
    apply Yields.foldlM fun _ _ _ ↦ rfl
    intro i hmem m₁ h₁
    have hlt := List.mem_range.mp hmem
    have hcell (k : Nat) (hk : k < (size - offset).toNat) :
        InCell dummy (dummy.toNat + offset.toNat + k) := by
      constructor
      · omega
      · obtain hf | hf := hf <;> omega
    simp only [loadPayload, storePayload, if_pos (hcell i (by omega)),
      if_pos (hcell (i + 1) (by omega))]
    intro x hx hx'
    rw [Function.update_of_ne (by omega)]
    exact h₁ x hx hx'
  exact hy.exists_ok nofun

-- The last byte of a larger payload lies outside the cell.
private theorem writeObject_ne_ok (m : Memory) {size offset : UInt64}
    (hf : ¬ PayloadFits size offset) (m' : Memory) :
    writeObject dummy m dummy size offset ≠ .ok m' := by
  intro h
  obtain ⟨h2, h16⟩ := not_or.mp hf
  obtain ⟨n, hn⟩ : ∃ n, (size - offset).toNat = n + 2 := Nat.exists_eq_add_of_le' (by omega)
  unfold writeObject at h
  obtain ⟨plSz, hi, h⟩ := bind_eq_ok h
  unfold Objects.int at hi
  split at hi
  · obtain rfl := Except.ok.inj hi
    rw [hn, show n + 2 - 1 = n + 1 by rfl, List.range_succ, List.foldlM_append] at h
    obtain ⟨m₁, -, h⟩ := bind_eq_ok h
    rw [List.foldlM_cons] at h
    obtain ⟨m₂, h, -⟩ := bind_eq_ok h
    obtain ⟨x, -, h⟩ := bind_eq_ok h
    have hout : ¬ InCell dummy (dummy.toNat + offset.toNat + (n + 1)) := by
      rintro ⟨-, hlt⟩
      omega
    rw [storePayload, if_neg hout] at h
    cases h
  · cases hi

private theorem writeIthElement_zero (h : -100 ≤ g.writeAccessRatio.toInt) :
    Objects.writeIthElement g 0 = .ok (decide (g.writeAccessRatio ≠ 0)) := by
  have hu : Objects.writeIthElement g 0 ≠ .error .undefined := by
    rw [Ne, Objects.writeIthElement_undefined_iff]
    omega
  unfold Objects.writeIthElement at hu ⊢
  split
  · next hz => simp [hz]
  · next hz =>
    simp only [if_neg hz] at hu
    split
    · simp [hz]
    · next hc =>
      simp only [if_neg hc] at hu
      dsimp only at hu ⊢
      split
      · next hi => exact absurd (if_pos hi) hu
      · simp [hz]

-- A loop of writes returns exactly if it is empty or its payload fits.
private theorem writeLoop_cases (n : Nat) (m : Memory) (size offset : UInt64) :
    ((n = 0 ∨ PayloadFits size offset) ∧ ∃ m',
        (List.range n).foldlM (fun m _ ↦ writeObject dummy m dummy size offset) m = .ok m' ∧
          SameHeader dummy offset.toNat m m') ∨
      (¬ (n = 0 ∨ PayloadFits size offset) ∧ ∀ m',
        (List.range n).foldlM (fun m _ ↦ writeObject dummy m dummy size offset) m ≠ .ok m') := by
  by_cases hf : PayloadFits size offset
  · have hy : Yields (fun _ : Stop ↦ False)
        ((List.range n).foldlM (fun m _ ↦ writeObject dummy m dummy size offset) m)
        (SameHeader dummy offset.toNat m) := by
      apply Yields.foldlM fun _ _ _ ↦ rfl
      intro _ _ m₁ h₁
      obtain ⟨m₂, he, h₂⟩ := exists_writeObject dummy m₁ hf
      rw [he]
      exact fun x hx hx' ↦ (h₂ x hx hx').trans (h₁ x hx hx')
    exact .inl ⟨.inr hf, hy.exists_ok nofun⟩
  · cases n with
    | zero => exact .inl ⟨.inl rfl, m, rfl, fun _ _ _ ↦ rfl⟩
    | succ n =>
      refine .inr ⟨by simp [hf], fun m' h ↦ ?_⟩
      rw [List.range_succ_eq_map, List.foldlM_cons] at h
      obtain ⟨m₁, h, -⟩ := bind_eq_ok h
      exact writeObject_ne_ok m hf m₁ h

-- The writes to the first element return exactly if they are defined, and then keep its header.
variable (dummy) in
private theorem writeElement_cases (g : GOptions) (m : Memory) (size offset : UInt64) :
    (WritesDefined g size offset ∧ ∃ m', writeElement dummy g m 0 dummy size offset = .ok m' ∧
        SameHeader dummy offset.toNat m m') ∨
      (¬ WritesDefined g size offset ∧
        ∀ m', writeElement dummy g m 0 dummy size offset ≠ .ok m') := by
  by_cases hz : g.writeAccessRatio = 0
  · refine .inl ⟨.inl hz, m, ?_, fun _ _ _ ↦ rfl⟩
    simp only [writeElement, Objects.writeIthElement, if_pos hz]
    rfl
  · by_cases hlo : -100 ≤ g.writeAccessRatio.toInt
    · have hw : writeElement dummy g m 0 dummy size offset =
          (List.range g.writeIterations.toNatClampNeg).foldlM
            (fun m _ ↦ writeObject dummy m dummy size offset) m := by
        simp only [writeElement, writeIthElement_zero hlo, bind, Except.bind]
        exact if_pos (decide_eq_true hz)
      have hiff : WritesDefined g size offset ↔
          (g.writeIterations.toNatClampNeg = 0 ∨ PayloadFits size offset) := by
        simp only [WritesDefined, hz, hlo, false_or, true_and, Int32.toNatClampNeg]
        apply or_congr_left
        omega
      rw [hw, hiff]
      exact writeLoop_cases _ m size offset
    · refine .inr ⟨fun h ↦ ?_, fun m' h ↦ ?_⟩
      · obtain h | h := h
        · exact hz h
        · exact hlo h.1
      · have hu := (Objects.writeIthElement_undefined_iff (g := g) 0).mpr (by omega)
        simp only [writeElement, hu, bind, Except.bind] at h
        cases h

/-! ### Built collections -/

/-- The links of the one cell of a collection: a list or a single node of a tree ends there,
any other tree has the cell as its own right subtree. -/
def CellAt (m : Memory) (dummy : UInt64) (d : LSClass) : Prop :=
  m.load dummy.toNat = 0 ∧ (d.type = .btree →
    m.load (dummy.toNat + 8) = if d.numObjects = 1 then 0 else dummy)

section

variable {E : Stop → Prop}

private theorem yields_int {n : Nat} (hn : n < 2 ^ 31 ∨ ∀ e, E e) :
    Yields E (Objects.int n) fun _ ↦ True := by
  unfold Objects.int
  split
  · trivial
  · next h => exact (hn.resolve_left h) _

private theorem yields_sizeCheck {type : LifetimeSizeClassType}
    (ht : type.hasBuilder = true) (hs : 16 ≤ sz.toNat ∨ ∀ e, E e) :
    Yields E (sizeCheck type sz) fun _ ↦ True := by
  cases hc : sizeCheck type sz with
  | ok _ => trivial
  | error e =>
    apply hs.resolve_left
    intro h
    rw [sizeCheck_of_hasBuilder ht h] at hc
    cases hc

private theorem allocate_spec (m : Memory) (hs : 16 ≤ sz.toNat ∨ ∀ e, E e) :
    Yields E (allocate dummy m sz) fun (p, m') ↦ p = dummy ∧ m' = m.store dummy.toNat 0 := by
  unfold allocate
  split
  · next hz =>
    apply hs.resolve_left
    intro h
    have h1 : Objects.sizeofObject.toNat = 1 := rfl
    rw [UInt64.lt_iff_toNat_lt] at hz
    omega
  · exact ⟨rfl, rfl⟩

private theorem allocateList_spec (m : Memory) (nelem : UInt64) (hs : 16 ≤ sz.toNat ∨ ∀ e, E e)
    (hn : nelem.toNat < 2 ^ 31 ∨ ∀ e, E e) :
    Yields E (allocateList dummy m sz nelem) fun (p, m') ↦
      p = dummy ∧ m'.load dummy.toNat = 0 := by
  unfold allocateList
  apply (yields_sizeCheck rfl hs).bind
  intro _ _
  apply (allocate_spec m hs).bind
  rintro ⟨start, m₁⟩ ⟨hstart, -⟩
  apply (yields_int hn).bind
  intro n _
  have hfold : Yields E ((List.range (n - 1)).foldlM (fun p _ ↦ do
      let (next, m) ← allocate dummy p.2 sz
      let m := m.store p.1.toNat next
      return (m.load p.1.toNat, m)) (start, m₁)) fun p ↦ p.1 = dummy := by
    apply Yields.foldlM (P := fun p : UInt64 × Memory ↦ p.1 = dummy) hstart
    intro _ _ p hp
    apply (allocate_spec p.2 hs).bind
    rintro ⟨next, m₂⟩ ⟨hnext, -⟩
    exact (load_store m₂ _ next).trans hnext
  apply hfold.bind
  rintro ⟨tmp, m₂⟩ (htmp : tmp = dummy)
  refine ⟨hstart, ?_⟩
  rw [htmp]
  exact load_store m₂ _ 0

-- A subtree leaves the cell without a left link, and with itself as its right one unless it
-- is a single node: the links to the right are stored last.
private theorem buildTreeRecursion_spec (nelem : Nat) (m : Memory)
    (hs : 16 ≤ sz.toNat ∨ ∀ e, E e) (hn : nelem < 2 ^ 31 ∨ ∀ e, E e) :
    Yields E (buildTreeRecursion dummy sz nelem m) fun (p, m') ↦
      (nelem = 0 → p = 0 ∧ m' = m) ∧ (1 ≤ nelem → p = dummy ∧ m'.load dummy.toNat = 0 ∧
        m'.load (dummy.toNat + 8) = if nelem = 1 then 0 else dummy) := by
  induction nelem using Nat.strongRecOn generalizing m with
  | ind nelem ih =>
  rw [buildTreeRecursion]
  split
  · next h0 => exact ⟨fun _ ↦ ⟨rfl, rfl⟩, by omega⟩
  next h0 =>
  have hsub (k : Nat) (hk : k ≤ nelem) : k < 2 ^ 31 ∨ ∀ e, E e := hn.imp_left fun h ↦ by omega
  apply (allocate_spec m hs).bind
  rintro ⟨t, m₁⟩ ⟨ht, -⟩
  subst ht
  apply (yields_int (hsub _ (by omega))).bind
  intro _ _
  apply (ih ((nelem - 1) / 2) (by omega) m₁ (hsub _ (by omega))).bind
  rintro ⟨left, m₂⟩ ⟨hl, -⟩
  apply (ih (nelem - 1 - (nelem - 1) / 2) (by omega) _ (hsub _ (by omega))).bind
  rintro ⟨right, m₃⟩ ⟨hr0, hr⟩
  refine ⟨fun h ↦ absurd h h0, fun _ ↦ ⟨rfl, ?_, ?_⟩⟩
  · rw [load_store_of_disjoint (by omega)]
    by_cases h1 : nelem = 1
    · obtain ⟨-, rfl⟩ := hr0 (by omega)
      rw [load_store]
      exact (hl (by omega)).1
    · exact (hr (by omega)).2.1
  · rw [load_store]
    by_cases h1 : nelem = 1
    · rw [if_pos h1]
      exact (hr0 (by omega)).1
    · rw [if_neg h1]
      exact (hr (by omega)).1

private theorem build_spec {d : LSClass} (hb : d.Built g) (m : Memory)
    (ht : d.type = .list ∨ d.type = .btree) (hs : 16 ≤ d.objectSize.toNat ∨ ∀ e, E e)
    (hn : d.numObjects.toNat < 2 ^ 31 ∨ ∀ e, E e) :
    Yields E (allocateLSClass dummy g m d.type d.objectSize d.numObjects) fun (p, m') ↦
      p = dummy ∧ CellAt m' dummy d := by
  have hpos : 0 < d.numObjects.toNat := by
    have := hb.num_pos
    rwa [UInt64.lt_iff_toNat_lt, UInt64.toNat_zero] at this
  have h1 : d.numObjects.toNat = 1 ↔ d.numObjects = 1 := UInt64.toNat_inj (b := 1)
  simp only [allocateLSClass, assert, if_pos hb.size_pos, if_pos hb.size_lt, if_pos hb.num_pos,
    bind, Except.bind]
  obtain ht | ht := ht
  · rw [ht]
    apply (allocateList_spec m d.numObjects hs hn).imp
    rintro ⟨p, m'⟩ ⟨hp, hl⟩
    exact ⟨hp, hl, fun hb ↦ by rw [ht] at hb; cases hb⟩
  · rw [ht]
    apply (yields_sizeCheck rfl hs).bind
    intro _ _
    apply (buildTreeRecursion_spec d.numObjects.toNat m hs hn).imp
    rintro ⟨p, m'⟩ ⟨-, h⟩
    obtain ⟨hp, hl, hr⟩ := h hpos
    exact ⟨hp, hl, fun _ ↦ by simpa only [h1] using hr⟩

end

/-- Every collection of an `int` number of objects that can hold both links is built. -/
theorem exists_allocateLSClass {d : LSClass} (hb : d.Built g) (m : Memory)
    (ht : d.type = .list ∨ d.type = .btree) (hs : 16 ≤ d.objectSize.toNat)
    (hn : d.numObjects.toNat < 2 ^ 31) :
    ∃ m', allocateLSClass dummy g m d.type d.objectSize d.numObjects = .ok (dummy, m') := by
  obtain ⟨⟨p, m'⟩, h, rfl, -⟩ :=
    (build_spec (E := fun _ ↦ False) hb m ht (.inl hs) (.inl hn)).exists_ok nofun
  exact ⟨m', h⟩

private theorem built_of_allocateLSClass {m m' : Memory} {d : LSClass} {start : UInt64}
    (ht : d.type = .list ∨ d.type = .btree)
    (h : allocateLSClass dummy g m d.type d.objectSize d.numObjects = .ok (start, m')) :
    d.Built g := by
  obtain ⟨_, hs, h⟩ := bind_eq_ok h
  obtain ⟨_, hs', h⟩ := bind_eq_ok h
  obtain ⟨_, hn, h⟩ := bind_eq_ok h
  refine ⟨assert_eq_ok hs, assert_eq_ok hs', assert_eq_ok hn, ?_⟩
  obtain ht | ht := ht <;>
  · rw [ht]
    rfl

/-! ### Termination -/

/-- A traversal and a deallocation return. -/
structure Terminates (dummy : UInt64) (g : GOptions) (d : LSClass) (start : UInt64) (m : Memory) :
    Prop where
  traverse : ∃ fuel m', traverseLSClass dummy g fuel d start m = .ok m'
  deallocate : ∃ fuel m', deallocateLSClass g fuel d start m = .ok m'

/-- Memories that traversals lead to. -/
inductive Traversed (dummy : UInt64) (g : GOptions) (d : LSClass) (start : UInt64) (m : Memory) :
    Memory → Prop where
  | none : Traversed dummy g d start m m
  | once {m₁ m₂ : Memory} (fuel : Nat) (hm : Traversed dummy g d start m m₁)
      (h : traverseLSClass dummy g fuel d start m₁ = .ok m₂) : Traversed dummy g d start m m₂

private theorem writeElement_of_ok {m m' : Memory} {size offset : UInt64}
    (h : writeElement dummy g m 0 dummy size offset = .ok m') :
    WritesDefined g size offset ∧ SameHeader dummy offset.toNat m m' := by
  obtain ⟨hw, m₁, he, hs⟩ | ⟨-, he⟩ := writeElement_cases dummy g m size offset
  · obtain rfl := Except.ok.inj (h.symm.trans he)
    exact ⟨hw, hs⟩
  · exact absurd h (he m')

private theorem exists_traverseList {m : Memory} (hd : dummy ≠ 0) (hl : m.load dummy.toNat = 0)
    (hw : WritesDefined g sz sizeofLObject) :
    ∃ m', traverseList dummy g sz 2 0 dummy m = .ok m' := by
  obtain ⟨-, m', he, hs⟩ | ⟨hn, -⟩ := writeElement_cases dummy g m sz sizeofLObject
  · have hn : m'.load dummy.toNat = 0 := (hs.left (by decide)).trans hl
    refine ⟨m', ?_⟩
    simp only [traverseList, if_neg hd, he, bind, Except.bind, Objects.int, hn]
    rfl
  · exact absurd hw hn

private theorem traverseList_of_ok {m m' : Memory} (hd : dummy ≠ 0)
    (hl : m.load dummy.toNat = 0) {fuel : Nat}
    (h : traverseList dummy g sz fuel 0 dummy m = .ok m') :
    WritesDefined g sz sizeofLObject ∧ SameHeader dummy 8 m m' := by
  cases fuel with
  | zero => cases h
  | succ fuel =>
    rw [traverseList, if_neg hd] at h
    obtain ⟨m₁, h₁, h⟩ := bind_eq_ok h
    obtain ⟨hw, hs⟩ := writeElement_of_ok h₁
    obtain ⟨_, -, h⟩ := bind_eq_ok h
    rw [(hs.left (by decide)).trans hl] at h
    cases fuel with
    | zero => cases h
    | succ fuel =>
      obtain rfl := Except.ok.inj h
      exact ⟨hw, hs⟩

private theorem exists_btreeRecursion {m : Memory} (hd : dummy ≠ 0)
    (hl : m.load dummy.toNat = 0) (hr : m.load (dummy.toNat + 8) = 0)
    (hw : WritesDefined g sz sizeofBTObject) :
    ∃ m', btreeInversePreorderRecursion dummy g sz 2 dummy m = .ok m' := by
  obtain ⟨-, m', he, hs⟩ | ⟨hn, -⟩ := writeElement_cases dummy g m sz sizeofBTObject
  · have hln : m'.load dummy.toNat = 0 := (hs.left (by decide)).trans hl
    have hrn : m'.load (dummy.toNat + 8) = 0 := hs.right.trans hr
    refine ⟨m', ?_⟩
    simp only [btreeInversePreorderRecursion, if_neg hd, he, bind, Except.bind, hrn, if_true, pure,
      Except.pure, hln]
  · exact absurd hw hn

private theorem btreeRecursion_of_ok {m m' : Memory} (hd : dummy ≠ 0)
    (hl : m.load dummy.toNat = 0) (hr : m.load (dummy.toNat + 8) = 0) {fuel : Nat}
    (h : btreeInversePreorderRecursion dummy g sz fuel dummy m = .ok m') :
    WritesDefined g sz sizeofBTObject ∧ SameHeader dummy 16 m m' := by
  have hnil (fuel : Nat) (m₁ m₂ : Memory)
      (h : btreeInversePreorderRecursion dummy g sz fuel 0 m₁ = .ok m₂) : m₂ = m₁ := by
    cases fuel with
    | zero => cases h
    | succ fuel => exact (Except.ok.inj h).symm
  cases fuel with
  | zero => cases h
  | succ fuel =>
    rw [btreeInversePreorderRecursion, if_neg hd] at h
    obtain ⟨m₁, h₁, h⟩ := bind_eq_ok h
    obtain ⟨hw, hs⟩ := writeElement_of_ok h₁
    obtain ⟨m₂, h₂, h₃⟩ := bind_eq_ok h
    rw [hs.right.trans hr] at h₂
    rw [hnil fuel m₁ m₂ h₂, (hs.left (by decide)).trans hl] at h₃
    rw [hnil fuel m₁ m' h₃]
    exact ⟨hw, hs⟩

private theorem btreeRecursion_ne_ok (hd : dummy ≠ 0) (fuel : Nat) {m : Memory}
    (hr : m.load (dummy.toNat + 8) = dummy) (m' : Memory) :
    btreeInversePreorderRecursion dummy g sz fuel dummy m ≠ .ok m' := by
  induction fuel generalizing m m' with
  | zero => nofun
  | succ fuel ih =>
    intro h
    rw [btreeInversePreorderRecursion, if_neg hd] at h
    obtain ⟨m₁, h₁, h⟩ := bind_eq_ok h
    obtain ⟨m₂, h₂, -⟩ := bind_eq_ok h
    have hr' : m₁.load (dummy.toNat + 8) = dummy := (writeElement_of_ok h₁).2.right.trans hr
    rw [hr'] at h₂
    exact ih hr' m₂ h₂

private theorem deallocateSubtreeRecursion_eq (hd : dummy ≠ 0) (fuel : Nat) {m : Memory}
    (hl : m.load dummy.toNat = 0) (hr : m.load (dummy.toNat + 8) = dummy) :
    deallocateSubtreeRecursion fuel dummy m = .error .outOfFuel := by
  induction fuel with
  | zero => rfl
  | succ fuel ih =>
    rw [deallocateSubtreeRecursion, if_neg hd, hl]
    cases fuel with
    | zero => rfl
    | succ fuel =>
      have h0 : deallocateSubtreeRecursion (fuel + 1) 0 m = .ok m := rfl
      simp only [h0, bind, Except.bind, hr, ih]

private theorem CellAt.traversed {d : LSClass} {m m' : Memory} (hd : dummy ≠ 0)
    (hm : CellAt m dummy d) (h : Traversed dummy g d dummy m m') : CellAt m' dummy d := by
  induction h with
  | none => exact hm
  | @once m₁ m₂ fuel _ h ih =>
    obtain ⟨hl, hr⟩ := ih
    unfold traverseLSClass at h
    split at h
    · next ht =>
      have hs := (traverseList_of_ok hd hl h).2
      exact ⟨(hs.left le_rfl).trans hl, fun hb ↦ by rw [ht] at hb; cases hb⟩
    · next ht =>
      have hr' := hr ht
      by_cases h1 : d.numObjects = 1
      · rw [if_pos h1] at hr'
        have hs := (btreeRecursion_of_ok hd hl hr' h).2
        exact ⟨(hs.left (by decide)).trans hl, fun _ ↦ by rw [if_pos h1, hs.right, hr']⟩
      · rw [if_neg h1] at hr'
        exact absurd h (btreeRecursion_ne_ok hd fuel hr' m₂)
    · cases h

private theorem deallocateLSClass_eq {d : LSClass} {start : UInt64} {m : Memory}
    (hb : d.Built g) (h0 : d.referenceCounter = 0) (fuel : Nat) :
    deallocateLSClass g fuel d start m =
      match d.type with
      | .list => deallocateList fuel start m
      | .btree => deallocateSubtreeRecursion fuel start m
      | _ => .error .undefined := by
  simp only [deallocateLSClass, assert, if_pos h0, if_pos hb.size_pos, if_pos hb.size_lt,
    if_pos hb.num_pos, bind, Except.bind]

private theorem terminates_list {d : LSClass} {m : Memory} (ht : d.type = .list)
    (hd : dummy ≠ 0) (hb : d.Built g) (h0 : d.referenceCounter = 0) (hm : CellAt m dummy d) :
    Terminates dummy g d dummy m ↔ WritesDefined g d.objectSize sizeofLObject := by
  constructor
  · intro ⟨⟨fuel, m', h⟩, _⟩
    rw [traverseLSClass, ht] at h
    exact (traverseList_of_ok hd hm.1 h).1
  · intro hw
    obtain ⟨m', h⟩ := exists_traverseList hd hm.1 hw
    refine ⟨⟨2, m', ?_⟩, ⟨2, m, ?_⟩⟩
    · rw [traverseLSClass, ht]
      exact h
    · rw [deallocateLSClass_eq hb h0, ht]
      simp only [deallocateList, if_neg hd, hm.1, if_true]
      rfl

private theorem terminates_node {d : LSClass} {m : Memory} (ht : d.type = .btree)
    (h1 : d.numObjects = 1) (hd : dummy ≠ 0) (hb : d.Built g) (h0 : d.referenceCounter = 0)
    (hm : CellAt m dummy d) :
    Terminates dummy g d dummy m ↔ WritesDefined g d.objectSize sizeofBTObject := by
  obtain ⟨hl, hr⟩ := hm
  have hr' := hr ht
  rw [if_pos h1] at hr'
  constructor
  · intro ⟨⟨fuel, m', h⟩, _⟩
    rw [traverseLSClass, ht] at h
    exact (btreeRecursion_of_ok hd hl hr' h).1
  · intro hw
    obtain ⟨m', h⟩ := exists_btreeRecursion hd hl hr' hw
    refine ⟨⟨2, m', ?_⟩, ⟨2, m, ?_⟩⟩
    · rw [traverseLSClass, ht]
      exact h
    · rw [deallocateLSClass_eq hb h0, ht]
      simp only [deallocateSubtreeRecursion, if_neg hd, hl, hr', if_true, bind, Except.bind, pure,
        Except.pure]
      rfl

private theorem deallocate_tree {d : LSClass} {m : Memory} (ht : d.type = .btree)
    (h1 : d.numObjects ≠ 1) (hd : dummy ≠ 0) (hb : d.Built g) (h0 : d.referenceCounter = 0)
    (hm : CellAt m dummy d) (fuel : Nat) :
    deallocateLSClass g fuel d dummy m = .error .outOfFuel := by
  have hr := hm.2 ht
  rw [if_neg h1] at hr
  rw [deallocateLSClass_eq hb h0, ht]
  exact deallocateSubtreeRecursion_eq hd fuel hm.1 hr

/-- A collection that has been built out of the one cell can be traversed and deallocated,
also after any traversals, exactly if it is a list or a single node and the write accesses
of a traversal are defined. -/
theorem terminates_iff {d : LSClass} {m m₁ m₂ : Memory} {start : UInt64}
    (ht : d.type = .list ∨ d.type = .btree) (hd : dummy ≠ 0) (h0 : d.referenceCounter = 0)
    (ha : allocateLSClass dummy g m d.type d.objectSize d.numObjects = .ok (start, m₁))
    (hm : Traversed dummy g d start m₁ m₂) :
    Terminates dummy g d start m₂ ↔ (d.type = .list ∨ d.numObjects = 1) ∧
      WritesDefined g d.objectSize (Objects.headerSize d.type) := by
  have hb := built_of_allocateLSClass ht ha
  have hy := @build_spec dummy g (fun _ ↦ True) d hb m ht (.inr fun _ ↦ trivial)
    (.inr fun _ ↦ trivial)
  rw [show allocateLSClass dummy g m d.type d.objectSize d.numObjects = _ from ha] at hy
  obtain ⟨rfl, hc⟩ := hy
  have hc' := hc.traversed hd hm
  obtain ht | ht := ht
  · rw [terminates_list ht hd hb h0 hc', ht]
    exact ⟨fun h ↦ ⟨.inl rfl, h⟩, And.right⟩
  · by_cases h1 : d.numObjects = 1
    · rw [terminates_node ht h1 hd hb h0 hc', ht]
      exact ⟨fun h ↦ ⟨.inr h1, h⟩, And.right⟩
    · constructor
      · intro ⟨_, fuel, m', h⟩
        rw [deallocate_tree ht h1 hd hb h0 hc'] at h
        cases h
      · intro ⟨h, _⟩
        rw [ht] at h
        exact absurd h (not_or.mpr ⟨nofun, h1⟩)

/-- A descriptor of two objects of the least size. -/
def twoObjects (type : LifetimeSizeClassType) : LSClass := ⟨0, 16, 1, 2, type, ⟨0, 0⟩⟩

private theorem built_twoObjects {type : LifetimeSizeClassType}
    (ht : type = .list ∨ type = .btree) :
    (twoObjects type).Built GOptions.setDefaultParams := by
  obtain rfl | rfl := ht <;>
  exact ⟨by decide, by decide, by decide, rfl⟩

/-- A list of two objects. -/
theorem terminates_iff_twoObjects :
    let d := twoObjects .list
    ∃ m₁, allocateLSClass 64 GOptions.setDefaultParams (fun _ ↦ 0) d.type d.objectSize
        d.numObjects = .ok (64, m₁) ∧
      (Terminates 64 GOptions.setDefaultParams d 64 m₁ ↔ (d.type = .list ∨ d.numObjects = 1) ∧
        WritesDefined GOptions.setDefaultParams d.objectSize (Objects.headerSize d.type)) := by
  obtain ⟨m₁, h⟩ := @exists_allocateLSClass 64 _ _ (built_twoObjects (.inl rfl))
    (fun _ ↦ 0) (.inl rfl) (by decide) (by decide)
  exact ⟨m₁, h, terminates_iff (.inl rfl) (by decide) rfl h .none⟩

/-- The deallocation of a tree of two objects does not end. -/
theorem not_forall_terminates :
    ¬ ∀ (dummy : UInt64) (g : GOptions) (d : LSClass) (m m₁ : Memory) (start : UInt64),
      dummy ≠ 0 → d.type = .list ∨ d.type = .btree → d.referenceCounter = 0 →
      16 ≤ d.objectSize → 1 ≤ d.numObjects →
      allocateLSClass dummy g m d.type d.objectSize d.numObjects = .ok (start, m₁) →
      Terminates dummy g d start m₁ := by
  intro h
  have hb := built_twoObjects (.inr rfl)
  have hy := @build_spec 64 _ (fun _ ↦ False) _ hb (fun _ ↦ 0) (.inr rfl) (.inl (by decide))
    (.inl (by decide))
  obtain ⟨⟨_, m₁⟩, ha, rfl, hc⟩ := hy.exists_ok nofun
  obtain ⟨fuel, m', hd⟩ :=
    (h 64 _ _ _ m₁ 64 (by decide) (.inr rfl) rfl (by decide) (by decide) ha).deallocate
  rw [deallocate_tree rfl (by decide) (by decide) hb rfl hc] at hd
  cases hd

end Acdc.Nulloc
