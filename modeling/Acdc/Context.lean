import Acdc.Random

/-!
# Thread contexts, slot pools and lifetime-size-classes

The thread-local context of `src/acdc.h:176–192` and the operations on its two slot pools:
nodes (`src/acdc.c:66–98`) and lifetime-size-classes (`src/lifetime-size-classes.c:31–68`),
with the accounting of `allocate_LSClass` and `deallocate_LSClass`.

A slot is named by the thread that owns its buffer and by its place in the buffer, so that
two slots at one address are one slot. A lifetime-class is the list of its nodes from `first` to
`last`, a cache the list of its slots. The memory of a collection is named by the thread that
allocates it and by the number of its allocation, so that no two collections have the same `start`.
-/

namespace Acdc

/-- A slot of a node buffer or of a class buffer. -/
structure Slot where
  owner : Nat
  index : Nat
  deriving DecidableEq, Repr

/-- The memory of one collection. -/
structure Block where
  thread : Nat
  serial : Nat
  deriving DecidableEq, Repr

/-- Node of a lifetime-class; `src/acdc.h:163–167`. -/
structure LSCNode where
  slot : Slot
  lsClass : Slot
  deriving DecidableEq, Repr

/-- Lifetime-class: nodes with the same expiry, from `first` to `last`; `src/acdc.h:170–173`. -/
abbrev LClass := List LSCNode

/-- Heap-class: one lifetime-class for each entry of the wheel. -/
abbrev HeapClass := List LClass

/-- Lifetime-size-class; `src/acdc.h:148–160`. -/
structure LSClass where
  referenceCounter : UInt64
  objectSize : UInt64
  lifetime : UInt32
  numObjects : UInt64
  type : LifetimeSizeClassType
  start : Block
  deriving DecidableEq, Repr

/-- Counters and histograms of `src/acdc.h:108–121`; times and memory samples are left out. -/
structure MStat where
  bytesAllocated : UInt64
  bytesDeallocated : UInt64
  objectsAllocated : UInt64
  objectsDeallocated : UInt64
  ltHistogram : List UInt64
  szHistogram : List UInt64
  deriving DecidableEq, Repr

/-- Thread context; `src/acdc.h:176–192`. `collections` counts the collections built so far. -/
structure MContext (σ : Type) where
  rand : σ
  stat : MStat
  time : UInt32
  heapClass : HeapClass
  nodeBufferCounter : Nat
  nodeCache : List Slot
  classBufferCounter : Nat
  classCache : List Slot
  collections : Nat

variable {σ : Type} (g : GOptions)

/-- Initial context of a thread; `src/acdc.c:186–234`. -/
def createMutatorContext (R : Generator σ) (i : Nat) : MContext σ where
  rand := R.seed i
  stat := {
    bytesAllocated := 0
    bytesDeallocated := 0
    objectsAllocated := 0
    objectsDeallocated := 0
    ltHistogram := List.replicate (g.maxLiveness + 1).toNatClampNeg 0
    szHistogram := List.replicate (g.maxObjectSc + 1).toNatClampNeg 0 }
  time := 0
  heapClass := List.replicate g.wheelSize []
  nodeBufferCounter := 0
  nodeCache := []
  classBufferCounter := 0
  classCache := []
  collections := 0

/-- Size of a cache line; `src/caches.h:11`. -/
def l1LineSz : Int32 := 64

/-- Size of a descriptor, `src/acdc.h:148–160`. -/
def sizeofLSClass : UInt64 := 48

/-- Distance of two class slots; `src/lifetime-size-classes.c:46`. -/
def lsClassStride : UInt32 :=
  ((sizeofLSClass / l1LineSz.toInt64.toUInt64) * l1LineSz.toInt64.toUInt64 +
    l1LineSz.toInt64.toUInt64).toUInt32

/-- The node at the counter `k` of the buffer of `i`; `src/acdc.c:82–83`. The offset is a
product of type `int`. -/
def nodeSlot (i k : Nat) : Except Stop Slot := do
  let offset ← intResult (k * l1LineSz.toInt)
  return ⟨i, (offset / l1LineSz).toNatClampNeg⟩

/-- The class slot at the counter `k` of the buffer of `i`; `src/lifetime-size-classes.c:46–49`.
The offset is a product of type `unsigned int`. -/
def classSlot (i k : Nat) : Slot := ⟨i, (UInt32.ofNat k * lsClassStride / lsClassStride).toNat⟩

/-- An unused node from the cache, else from the buffer; `src/acdc.c:66–90`. -/
def getLSCNode (i : Nat) (mc : MContext σ) : Except Stop (Slot × MContext σ) :=
  match mc.nodeCache with
  | node :: rest => .ok (node, { mc with nodeCache := rest })
  | [] =>
    if g.nodeBufferSize.toNat ≤ mc.nodeBufferCounter then .error .nodeBufferOverflow
    else do
      let node ← nodeSlot i mc.nodeBufferCounter
      return (node, { mc with nodeBufferCounter := mc.nodeBufferCounter + 1 })

/-- `src/acdc.c:95–98`. -/
def recycleLSCNode (mc : MContext σ) (node : Slot) : MContext σ :=
  { mc with nodeCache := node :: mc.nodeCache }

/-- An unused class slot from the cache, else from the buffer;
`src/lifetime-size-classes.c:31–60`. -/
def getLSClass (i : Nat) (mc : MContext σ) : Except Stop (Slot × MContext σ) :=
  match mc.classCache with
  | c :: rest => .ok (c, { mc with classCache := rest })
  | [] =>
    if g.classBufferSize.toNat ≤ mc.classBufferCounter then .error .classBufferOverflow
    else .ok (classSlot i mc.classBufferCounter,
      { mc with classBufferCounter := mc.classBufferCounter + 1 })

/-- `src/lifetime-size-classes.c:62–68`; the class is reused in place as a list node. -/
def recycleLSClass (mc : MContext σ) (c : Slot) : MContext σ :=
  { mc with classCache := c :: mc.classCache }

/-- Size of two links, the least object of a tree. -/
def sizeofBTObject : UInt64 := 16

/-- Size of one link, the least object of a list. -/
def sizeofLObject : UInt64 := 8

/-- The size check of a builder; `src/lifetime-size-classes.c:319–322,358–362,407–411`. -/
def sizeCheck (type : LifetimeSizeClassType) (sz : UInt64) : Except Stop Unit :=
  match type with
  | .list => if sz < sizeofLObject then .error .objectTooSmall else .ok ()
  | .optimalList => .ok ()
  | .btree | .optimalBtree => if sz < sizeofBTObject then .error .objectTooSmall else .ok ()
  | .falseSharing | .optimalFalseSharing => .error .undefined

/-- Allocation of a collection, `src/lifetime-size-classes.c:465–495`, with the descriptor
of `new_LSClass`. The two false sharing types return no descriptor, which the caller
dereferences. Unlinking and clearing the slot as a list node zeroes the counter. -/
def allocateLSClass (i : Nat) (mc : MContext σ) (type : LifetimeSizeClassType)
    (sz nelem : UInt64) (lifetime : UInt32) : Except Stop (Slot × LSClass × MContext σ) := do
  assert (0 < sz)
  assert (sz < bitZeroShl g.maxObjectSc)
  assert (0 < nelem)
  let mc := { mc with stat := { mc.stat with
    bytesAllocated := mc.stat.bytesAllocated + sz * nelem
    objectsAllocated := mc.stat.objectsAllocated + nelem } }
  sizeCheck type sz
  let (c, mc) ← getLSClass g i mc
  return (c, ⟨0, sz, lifetime, nelem, type, ⟨i, mc.collections⟩⟩,
    { mc with collections := mc.collections + 1 })

/-- Deallocation of a collection; `src/lifetime-size-classes.c:497–548`. The two false
sharing types keep their descriptor. -/
def deallocateLSClass (mc : MContext σ) (c : Slot) (d : LSClass) :
    Except Stop (MContext σ) := do
  assert (d.referenceCounter = 0)
  assert (0 < d.objectSize)
  assert (d.objectSize < bitZeroShl g.maxObjectSc)
  assert (0 < d.numObjects)
  let mc := { mc with stat := { mc.stat with
    bytesDeallocated := mc.stat.bytesDeallocated + d.objectSize * d.numObjects
    objectsDeallocated := mc.stat.objectsDeallocated + d.numObjects } }
  match d.type with
  | .list | .optimalList | .btree | .optimalBtree => return recycleLSClass mc c
  | .falseSharing | .optimalFalseSharing => return mc

/-- The offsets of nodes are defined for `2 ^ 25` of them. -/
theorem nodeSlot_eq (i k : Nat) :
    nodeSlot i k = if k < 2 ^ 25 then .ok ⟨i, k⟩ else .error .undefined := by
  have hl : l1LineSz.toInt = 64 := rfl
  unfold nodeSlot
  rw [hl]
  split
  · next hk =>
    have hfits : FitsInt (k * 64) := ⟨by omega, by omega⟩
    have hofs : (Int32.ofInt (k * 64)).toInt = k * 64 :=
      Int32.toInt_ofInt_of_le hfits.1 hfits.2
    have hquot : (Int32.ofInt (k * 64) / l1LineSz).toNatClampNeg = k := by
      rw [Int32.toNatClampNeg, Int32.toInt_div, hofs, hl, Int.mul_tdiv_cancel _ (by decide),
        Int.bmod_eq_of_le (by omega) (by omega)]
      rfl
    rw [intResult_of_fits hfits]
    exact congrArg (fun k ↦ Except.ok (Slot.mk i k)) hquot
  · next hk =>
    have hfits : ¬ FitsInt (k * 64) := fun h ↦ hk (by have := h.2; omega)
    rw [intResult, if_neg hfits]
    rfl

/-- Slot `2 ^ 26` of a class buffer is slot 0 again. -/
theorem classSlot_eq (i k : Nat) : classSlot i k = ⟨i, k % 2 ^ 26⟩ := by
  have hl : lsClassStride.toNat = 64 := rfl
  rw [classSlot, UInt32.toNat_div, UInt32.toNat_mul, hl, UInt32.toNat_ofNat']
  congr 1
  omega

/-- A class slot is not past its counter. -/
theorem classSlot_index_le (i k : Nat) :
    (classSlot i k).owner = i ∧ (classSlot i k).index ≤ k := by
  rw [classSlot_eq]
  exact ⟨rfl, Nat.mod_le ..⟩

/-- The nodes that a thread can carve. -/
def GOptions.nodeLimit (g : GOptions) : Nat := min g.nodeBufferSize.toNat (2 ^ 25)

/-- A slot leaves its cache, or else it is carved as one of `size` slots. -/
inductive Taken (size : Nat) (slot : Nat → Slot) :
    List Slot → Nat → Slot → List Slot → Nat → Prop where
  | reused (node : Slot) (cache : List Slot) (k : Nat) :
      Taken size slot (node :: cache) k node cache k
  | carved (k : Nat) (h : k < size) : Taken size slot [] k (slot k) [] (k + 1)

/-- Taking a slot leaves one slot less in the cache or a counter that is one higher. -/
theorem Taken.counter {size k₀ k : Nat} {slot : Nat → Slot} {cache₀ cache : List Slot} {c : Slot}
    (h : Taken size slot cache₀ k₀ c cache k) :
    k₀ ≤ k ∧ k ≤ k₀ + 1 ∧ k₀ + cache.length + 1 = k + cache₀.length ∧
      (k₀ ≤ size → k ≤ size) := by
  cases h with
  | reused => exact ⟨le_rfl, Nat.le_succ _, by rw [List.length_cons]; omega, id⟩
  | carved _ hk => exact ⟨Nat.le_succ _, le_rfl, rfl, fun _ ↦ hk⟩

/-- A successful `get_LSCNode` takes a slot of the node pool. -/
theorem getLSCNode_cases {i : Nat} {mc mc' : MContext σ} {node : Slot}
    (h : getLSCNode g i mc = .ok (node, mc')) :
    ∃ cache k, Taken g.nodeLimit (Slot.mk i) mc.nodeCache mc.nodeBufferCounter node cache k ∧
      mc' = { mc with nodeCache := cache, nodeBufferCounter := k } := by
  unfold getLSCNode at h
  split at h
  · next n rest hc =>
    obtain ⟨rfl, rfl⟩ := Prod.mk.inj (Except.ok.inj h)
    exact ⟨rest, _, hc ▸ .reused n rest _, rfl⟩
  · next hc =>
    rw [nodeSlot_eq] at h
    split at h
    · cases h
    · next hb =>
      split at h
      · next hk =>
        obtain ⟨rfl, rfl⟩ := Prod.mk.inj (Except.ok.inj h)
        refine ⟨[], mc.nodeBufferCounter + 1, ?_, by rw [hc]⟩
        rw [hc]
        exact .carved _ (lt_min (Nat.lt_of_not_le hb) hk)
      · cases h

/-- A successful `get_LSClass` takes a slot of the class pool. -/
theorem getLSClass_cases {i : Nat} {mc mc' : MContext σ} {c : Slot}
    (h : getLSClass g i mc = .ok (c, mc')) :
    ∃ cache k, Taken g.classBufferSize.toNat (classSlot i) mc.classCache mc.classBufferCounter
      c cache k ∧ mc' = { mc with classCache := cache, classBufferCounter := k } := by
  unfold getLSClass at h
  split at h
  · next n rest hc =>
    obtain ⟨rfl, rfl⟩ := Prod.mk.inj (Except.ok.inj h)
    exact ⟨rest, _, hc ▸ .reused n rest _, rfl⟩
  · next hc =>
    split at h
    · cases h
    · next hb =>
      obtain ⟨rfl, rfl⟩ := Prod.mk.inj (Except.ok.inj h)
      refine ⟨[], mc.classBufferCounter + 1, ?_, by rw [hc]⟩
      rw [hc]
      exact .carved _ (by omega)

/-- A passed assertion holds. -/
theorem assert_eq_ok {p : Prop} [Decidable p] {u : Unit} (h : assert p = .ok u) : p := by
  unfold assert at h
  split at h
  · next hp => exact hp
  · cases h

/-- A computation that succeeds has succeeded at its first step. -/
theorem bind_eq_ok {α β : Type} {x : Except Stop α} {f : α → Except Stop β} {b : β}
    (h : x >>= f = .ok b) : ∃ a, x = .ok a ∧ f a = .ok b := by
  cases x with
  | error e => cases h
  | ok a => exact ⟨a, rfl, h⟩

/-- A computation fails at its first step or after it. -/
theorem bind_eq_error_iff {α β : Type} {x : Except Stop α} {f : α → Except Stop β} {e : Stop} :
    x >>= f = .error e ↔ x = .error e ∨ ∃ a, x = .ok a ∧ f a = .error e := by
  cases x with
  | error e' =>
    constructor
    · intro h
      exact .inl (congrArg Except.error (Except.error.inj h))
    · rintro (h | ⟨a, h, -⟩)
      · exact congrArg Except.error (Except.error.inj h)
      · cases h
  | ok a =>
    constructor
    · intro h
      exact .inr ⟨a, rfl, h⟩
    · rintro (h | ⟨b, h, hf⟩)
      · cases h
      · cases h
        exact hf

/-- Types with a builder; there is none for the two false sharing types. -/
def LifetimeSizeClassType.hasBuilder : LifetimeSizeClassType → Bool
  | .list | .optimalList | .btree | .optimalBtree => true
  | .falseSharing | .optimalFalseSharing => false

/-- Descriptors that the builders make: their size passes the assertions, and there is a
builder for their type. -/
structure LSClass.Built (d : LSClass) : Prop where
  size_pos : 0 < d.objectSize
  size_lt : d.objectSize < bitZeroShl g.maxObjectSc
  num_pos : 0 < d.numObjects
  hasBuilder : d.type.hasBuilder = true

/-- The counter is not among the fields that the builders check. -/
@[simp] theorem LSClass.built_counter (d : LSClass) (k : UInt64) :
    LSClass.Built g { d with referenceCounter := k } ↔ d.Built g :=
  ⟨fun ⟨h0, h1, h2, h3⟩ ↦ ⟨h0, h1, h2, h3⟩, fun ⟨h0, h1, h2, h3⟩ ↦ ⟨h0, h1, h2, h3⟩⟩

/-- A descriptor as it was when its collection was built. -/
def LSClass.initial (d : LSClass) : LSClass := { d with referenceCounter := 0 }

@[simp] theorem LSClass.initial_counter (d : LSClass) (k : UInt64) :
    LSClass.initial { d with referenceCounter := k } = d.initial := rfl

theorem LSClass.Built.of_initial {d d' : LSClass} (hd : d.Built g)
    (h : d'.initial = d.initial) : d'.Built g := by
  have hi : d.initial.Built g := (built_counter g d 0).mpr hd
  rw [← h] at hi
  exact (built_counter g d' 0).mp hi

/-- Only a type with a builder passes the size check. -/
theorem sizeCheck_eq_ok {type : LifetimeSizeClassType} {sz : UInt64} {u : Unit}
    (h : sizeCheck type sz = .ok u) : type.hasBuilder = true := by
  cases type with
  | falseSharing => cases h
  | optimalFalseSharing => cases h
  | _ => rfl

/-- A size of two links passes the check of every builder. -/
theorem sizeCheck_of_hasBuilder {type : LifetimeSizeClassType} {sz : UInt64}
    (ht : type.hasBuilder = true) (hsz : 16 ≤ sz.toNat) : sizeCheck type sz = .ok () := by
  have hb : ¬ sz < sizeofBTObject := UInt64.not_lt.mpr hsz
  have hl : ¬ sz < sizeofLObject := by
    rw [UInt64.lt_iff_toNat_lt, show sizeofLObject.toNat = 8 from rfl]
    omega
  cases type with
  | list => exact if_neg hl
  | optimalList => rfl
  | btree => exact if_neg hb
  | optimalBtree => exact if_neg hb
  | falseSharing => cases ht
  | optimalFalseSharing => cases ht

/-- What a successful `allocate_LSClass` does. -/
theorem allocateLSClass_cases {i : Nat} {mc mc' : MContext σ} {type : LifetimeSizeClassType}
    {sz nelem : UInt64} {lifetime : UInt32} {c : Slot} {d : LSClass}
    (h : allocateLSClass g i mc type sz nelem lifetime = .ok (c, d, mc')) :
    d = ⟨0, sz, lifetime, nelem, type, ⟨i, mc.collections⟩⟩ ∧ d.Built g ∧
      ∃ cache k, Taken g.classBufferSize.toNat (classSlot i) mc.classCache mc.classBufferCounter
        c cache k ∧ mc' = { mc with
          stat := { mc.stat with
            bytesAllocated := mc.stat.bytesAllocated + sz * nelem
            objectsAllocated := mc.stat.objectsAllocated + nelem }
          classCache := cache
          classBufferCounter := k
          collections := mc.collections + 1 } := by
  unfold allocateLSClass at h
  obtain ⟨_, h0, h⟩ := bind_eq_ok h
  obtain ⟨_, h1, h⟩ := bind_eq_ok h
  obtain ⟨_, h2, h⟩ := bind_eq_ok h
  obtain ⟨_, h3, h⟩ := bind_eq_ok h
  obtain ⟨⟨c', m⟩, hg, h⟩ := bind_eq_ok h
  obtain ⟨cache, k, ht, rfl⟩ := getLSClass_cases g hg
  obtain ⟨rfl, hd, rfl⟩ : c' = c ∧ _ = d ∧ _ = mc' := by
    simpa only [pure, Except.pure, Except.ok.injEq, Prod.mk.injEq] using h
  subst hd
  exact ⟨rfl, ⟨assert_eq_ok h0, assert_eq_ok h1, assert_eq_ok h2, sizeCheck_eq_ok h3⟩,
    cache, k, ht, rfl⟩

/-- Only the counter can fail the assertions on a descriptor that a builder has made. -/
theorem deallocateLSClass_eq_ok (mc : MContext σ) (c : Slot) {d : LSClass} (hd : d.Built g)
    (h0 : d.referenceCounter = 0) : ∃ mc', deallocateLSClass g mc c d = .ok mc' := by
  unfold deallocateLSClass
  simp only [assert, h0, hd.size_pos, hd.size_lt, hd.num_pos, ite_true, bind, Except.bind]
  cases d.type <;> exact ⟨_, rfl⟩

/-- What a successful `deallocate_LSClass` does. -/
theorem deallocateLSClass_cases {mc mc' : MContext σ} {c : Slot} {d : LSClass}
    (h : deallocateLSClass g mc c d = .ok mc') :
    d.referenceCounter = 0 ∧ mc' = { mc with
      stat := { mc.stat with
        bytesDeallocated := mc.stat.bytesDeallocated + d.objectSize * d.numObjects
        objectsDeallocated := mc.stat.objectsDeallocated + d.numObjects }
      classCache := if d.type.hasBuilder then c :: mc.classCache else mc.classCache } := by
  unfold deallocateLSClass at h
  obtain ⟨_, h0, h⟩ := bind_eq_ok h
  obtain ⟨_, -, h⟩ := bind_eq_ok h
  obtain ⟨_, -, h⟩ := bind_eq_ok h
  obtain ⟨_, -, h⟩ := bind_eq_ok h
  refine ⟨assert_eq_ok h0, ?_⟩
  cases ht : d.type <;>
  · rw [ht] at h
    exact (Except.ok.inj h).symm

end Acdc
