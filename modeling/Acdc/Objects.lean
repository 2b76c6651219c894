import Acdc.Base.Fallible
import Acdc.Base.Heap
import Acdc.Context

/-!
# Objects

Allocation, links and payloads of single objects: `src/memory.c:17–33,53–55` and
`src/lifetime-size-classes.c:20–29,88–94`. `acdc_alloc` and `acdc_free` are those of an
allocator, which may decline a request. The code does not check for that, so a declined
request ends the run. An access outside the live regions leaves the behaviour undefined,
and so does an `int` that overflows.
-/

namespace Acdc.Objects

open Fallible Heap

/-- The value of an `int`. -/
def int (n : Nat) : Except Stop Nat := if n < 2 ^ 31 then .ok n else .error .undefined

/-- Size of an object without links: that of `void`, which the compiler takes to be 1. -/
def sizeofObject : UInt64 := 1

theorem toNat_pos_of_sizeofObject_le {size : UInt64} (h : ¬ size < sizeofObject) :
    0 < size.toNat := by
  have h1 : sizeofObject.toNat = 1 := rfl
  rw [UInt64.lt_iff_toNat_lt] at h
  omega

/-- `src/memory.c:17–33`. -/
def allocate (A : Allocator) (h : Heap) (size : UInt64) : Except Stop (UInt64 × Heap) :=
  if hs : size < sizeofObject then .error .objectTooSmall
  else
    match h.alloc A size.toNat (toNat_pos_of_sizeofObject_le hs) with
    | some r => .ok r
    | none => .error .outOfMemory

/-- `src/memory.c:53–55`. -/
def deallocate (A : Allocator) (h : Heap) (o : UInt64) : Except Stop Heap :=
  match h.free A o.toNat with
  | some h => .ok h
  | none => .error .undefined

/-- Read of a link. -/
def loadLink (h : Heap) (a : Nat) : Except Stop (UInt64 × Heap) :=
  if h.Covers ⟨a, 8⟩ then .ok (h.loadWord a) else .error .undefined

/-- Write of a link. -/
def storeLink (h : Heap) (a : Nat) (v : UInt64) : Except Stop Heap :=
  if h.Covers ⟨a, 8⟩ then .ok (h.storeWord a v) else .error .undefined

/-- Read of a payload byte. -/
def loadPayload (h : Heap) (a : Nat) : Except Stop (UInt8 × Heap) :=
  if h.Covers ⟨a, 1⟩ then .ok (h.loadByte a) else .error .undefined

/-- Write of a payload byte. -/
def storePayload (h : Heap) (a : Nat) (x : UInt8) : Except Stop Heap :=
  if h.Covers ⟨a, 1⟩ then .ok (h.storeByte a x) else .error .undefined

/-- Each payload byte but the first becomes the one before it plus one;
`src/lifetime-size-classes.c:20–29`. -/
def writeObject (h : Heap) (o size offset : UInt64) : Except Stop Heap := do
  let payload := o.toNat + offset.toNat
  let plSz ← int (size - offset).toNat
  (List.range (plSz - 1)).foldlM (fun h i ↦ do
    let (x, h) ← loadPayload h (payload + i)
    storePayload h (payload + (i + 1)) (x + 1)) h

/-- Whether an element is written; `src/lifetime-size-classes.c:88–94`. -/
def writeIthElement (g : GOptions) (i : Nat) : Except Stop Bool :=
  if g.writeAccessRatio = 0 then .ok false
  else if 100 ≤ g.writeAccessRatio then .ok true
  else
    let ith := 100 / g.writeAccessRatio
    if ith = 0 then .error .undefined else .ok (decide (Int32.ofNat i % ith = 0))

/-- The writes to one element of a traversal;
`src/lifetime-size-classes.c:283–286,436–438,452–454`. -/
def writeElement (g : GOptions) (h : Heap) (i : Nat) (o size offset : UInt64) :
    Except Stop Heap := do
  if ← writeIthElement g i then
    (List.range g.writeIterations.toNatClampNeg).foldlM (fun h _ ↦ writeObject h o size offset) h
  else return h

/-- A visit of a traversal, and the number of calls of `write_object` for its object. -/
structure Visit where
  object : UInt64
  writes : Nat
  deriving DecidableEq, Repr

/-- Whether the object of a visit is written. -/
def Visit.written (v : Visit) : Bool := decide (0 < v.writes)

/-- The writes to one element of a traversal, with its visit: each call of `write_object` is
counted. -/
def visitElement (g : GOptions) (h : Heap) (i : Nat) (o size offset : UInt64) :
    Except Stop (Visit × Heap) := do
  if ← writeIthElement g i then
    let (writes, h) ← (List.range g.writeIterations.toNatClampNeg).foldlM (fun p _ ↦ do
      let h ← writeObject p.2 o size offset
      return (p.1 + 1, h)) (0, h)
    return (⟨o, writes⟩, h)
  else return (⟨o, 0⟩, h)

/-- The choice of `write_ith_element`, where it is defined. -/
def writesIth (g : GOptions) (i : Nat) : Bool :=
  match writeIthElement g i with
  | .ok w => w
  | .error _ => false

/-- The calls of `write_object` for the element at an access counter. -/
def writesTo (g : GOptions) (i : Nat) : Nat :=
  if writesIth g i then g.writeIterations.toNatClampNeg else 0

/-- The memory of an object. -/
def object (size o : UInt64) : Region := ⟨o.toNat, size.toNat⟩

/-- The memory of an object after its links. -/
def payload (size offset o : UInt64) : Region :=
  ⟨o.toNat + offset.toNat, size.toNat - offset.toNat⟩

/-- The payloads of the objects that visits write. -/
def InWritten (size offset : UInt64) (vs : List Visit) (x : Nat) : Prop :=
  ∃ v ∈ vs, v.written = true ∧ (payload size offset v.object).Has x

/-! ### Specifications -/

section

variable {E : Stop → Prop} {h : Heap}

theorem int_spec {n : Nat} (hn : n < 2 ^ 31) : Yields E (int n) (· = n) := by
  rw [int, if_pos hn]
  rfl

/-- Allocation returns a new region of the requested size. -/
theorem allocate_spec (hE : E .outOfMemory) (A : Allocator) (h : Heap) {size : UInt64}
    (hs : 0 < size) : Yields E (allocate A h size) fun (p, h') ↦
      (object size p).Valid ∧ Builds [object size p] h h' := by
  have hn : 0 < size.toNat := UInt64.lt_iff_toNat_lt.mp hs
  have hz : ¬ size < sizeofObject := by
    rw [UInt64.lt_iff_toNat_lt]
    exact Nat.not_lt.mpr hn
  unfold allocate
  rw [dif_neg hz]
  split
  · next r hr =>
    have H := grows_alloc hr
    exact ⟨r.2.valid _ (H.new_mem_live List.mem_cons_self), H.builds⟩
  · exact hE

/-- A live region is freed through its address. -/
theorem deallocate_spec (A : Allocator) {size o : UInt64} (ho : object size o ∈ h.live) :
    Yields E (deallocate A h o) (Shrinks [object size o] h) := by
  obtain ⟨h', hf, H⟩ := free_eq_some A ho
  unfold deallocate
  rw [show h.free A o.toNat = some h' from hf]
  exact H

theorem loadLink_spec {a : Nat} (hc : h.Covers ⟨a, 8⟩) :
    Yields E (loadLink h a) (· = h.loadWord a) := by
  rw [loadLink, if_pos hc]
  rfl

theorem storeLink_spec {a : Nat} {v : UInt64} (hc : h.Covers ⟨a, 8⟩) :
    Yields E (storeLink h a v) (· = h.storeWord a v) := by
  rw [storeLink, if_pos hc]
  rfl

theorem loadPayload_spec {a : Nat} (hc : h.Covers ⟨a, 1⟩) :
    Yields E (loadPayload h a) (· = h.loadByte a) := by
  rw [loadPayload, if_pos hc]
  rfl

theorem storePayload_spec {a : Nat} {x : UInt8} (hc : h.Covers ⟨a, 1⟩) :
    Yields E (storePayload h a x) (· = h.storeByte a x) := by
  rw [storePayload, if_pos hc]
  rfl

/-- Only the payload is written. -/
theorem writeObject_spec {o size offset : UInt64} (hc : h.Covers (object size o))
    (ho : offset ≤ size) (hs : size.toNat < 2 ^ 31) :
    Yields E (writeObject h o size offset) (Grows [] (payload size offset o).Has h) := by
  have ho' : offset.toNat ≤ size.toNat := ho
  have hsub : (size - offset).toNat = size.toNat - offset.toNat := UInt64.toNat_sub_of_le _ _ ho
  have hin (i : Nat) (hi : i < size.toNat - offset.toNat) {h' : Heap}
      (H : Grows [] (payload size offset o).Has h h') :
      h'.Covers ⟨o.toNat + offset.toNat + i, 1⟩ := by
    obtain ⟨s, hs, hw⟩ := H.covers hc
    have hw' : Region.Within ⟨o.toNat + offset.toNat + i, 1⟩ (object size o) := by
      simp only [Region.Within, object]
      omega
    exact ⟨s, hs, hw'.trans hw⟩
  unfold writeObject
  apply (int_spec (by omega)).bind
  rintro _ rfl
  rw [hsub]
  apply Yields.foldlM_range (P := fun _ ↦ Grows [] (payload size offset o).Has h) _ (.refl _ h)
  intro i hi h₁ H₁
  apply (loadPayload_spec (hin i (by omega) H₁)).bind
  rintro _ rfl
  have H₂ := H₁.trans (grows_loadByte h₁ (o.toNat + offset.toNat + i)) (by simp)
  apply (storePayload_spec (hin (i + 1) (by omega) H₂)).imp
  rintro _ rfl
  apply H₂.trans (grows_storeByte _ _ _)
  intro x hx
  left
  simp only [Region.Has, payload] at hx ⊢
  omega

/-- A write access divides by zero exactly for a ratio below -100. -/
theorem writeIthElement_undefined_iff {g : GOptions} (i : Nat) :
    writeIthElement g i = .error .undefined ↔ g.writeAccessRatio.toInt < -100 := by
  have hz : g.writeAccessRatio = 0 ↔ g.writeAccessRatio.toInt = 0 := Int32.toInt_inj.symm
  have hc : 100 ≤ g.writeAccessRatio ↔ 100 ≤ g.writeAccessRatio.toInt := Int32.le_iff_toInt_le
  unfold writeIthElement
  split
  · next h =>
    rw [hz] at h
    constructor
    · nofun
    · omega
  · next h =>
    split
    · next h' =>
      rw [hc] at h'
      constructor
      · nofun
      · omega
    · next h' =>
      have hdiv := hundred_div_eq_zero_iff h
      rw [hc] at h'
      dsimp only
      split
      · next hd =>
        have hlt := hdiv.mp hd
        constructor
        · omega
        · exact fun _ ↦ rfl
      · next hd =>
        have hle := mt hdiv.mpr hd
        constructor
        · nofun
        · omega

/-- The other ratios leave a choice. -/
theorem writeIthElement_eq_ok {g : GOptions} (hw : -100 ≤ g.writeAccessRatio.toInt) (i : Nat) :
    writeIthElement g i = .ok (writesIth g i) := by
  unfold writesIth
  cases hx : writeIthElement g i with
  | ok w => rfl
  | error e =>
    have he : e = .undefined := by
      unfold writeIthElement at hx
      grind
    rw [he, writeIthElement_undefined_iff] at hx
    omega

/-- Only the payload of the element is written, if it is chosen. -/
theorem visitElement_spec {g : GOptions} (hw : -100 ≤ g.writeAccessRatio.toInt) (i : Nat)
    {o size offset : UInt64} (hc : h.Covers (object size o)) (ho : offset ≤ size)
    (hs : size.toNat < 2 ^ 31) :
    Yields E (visitElement g h i o size offset) fun (v, h') ↦ v = ⟨o, writesTo g i⟩ ∧
      Grows [] (InWritten size offset [v]) h h' := by
  unfold visitElement writesTo
  rw [writeIthElement_eq_ok hw i]
  cases writesIth g i with
  | false => exact ⟨rfl, .refl _ h⟩
  | true =>
    -- after `n` calls the payload is written if there was one
    apply (Yields.foldlM_range (P := fun n (p : Nat × Heap) ↦ p.1 = n ∧
      Grows [] (fun x ↦ 0 < n ∧ (payload size offset o).Has x) h p.2)
        g.writeIterations.toNatClampNeg ⟨rfl, .refl _ h⟩ ?_).bind
    · rintro ⟨n, h₁⟩ ⟨hn, H₁⟩
      subst hn
      exact ⟨rfl, H₁.mono fun _ hx ↦
        ⟨_, List.mem_singleton_self _, decide_eq_true hx.1, hx.2⟩⟩
    · rintro n - ⟨k, h₁⟩ ⟨hk, H₁⟩
      apply (writeObject_spec (H₁.covers hc) ho hs).bind
      intro h₂ H₂
      refine ⟨congrArg (· + 1) hk, ?_⟩
      apply (H₁.mono fun _ hx ↦ ⟨Nat.succ_pos n, hx.2⟩).trans H₂
      exact fun _ hx ↦ .inl ⟨Nat.succ_pos n, hx⟩

-- A loop that counts its turns.
private theorem map_foldlM_count {α β : Type} (f : α → Except Stop α) (l : List β) (n : Nat)
    (a : α) : (l.foldlM (fun (p : Nat × α) _ ↦ do
      let a ← f p.2
      return (p.1 + 1, a)) (n, a)).map Prod.snd = l.foldlM (fun a _ ↦ f a) a := by
  induction l generalizing n a with
  | nil => rfl
  | cons b l ih =>
    rw [List.foldlM_cons, List.foldlM_cons]
    cases hf : f a with
    | error e => simp [bind, Except.bind, Except.map]
    | ok a' =>
      simp only [bind, Except.bind, pure, Except.pure]
      exact ih (n + 1) a'

/-- The visit is the traversal of one element. -/
theorem map_visitElement (g : GOptions) (h : Heap) (i : Nat) (o size offset : UInt64) :
    (visitElement g h i o size offset).map Prod.snd = writeElement g h i o size offset := by
  unfold visitElement writeElement
  cases writeIthElement g i with
  | error e => rfl
  | ok w =>
    cases w with
    | false => rfl
    | true =>
      have hcount := map_foldlM_count (fun h ↦ writeObject h o size offset)
        (List.range g.writeIterations.toNatClampNeg) 0 h
      simp only [bind, Except.bind, if_true, ← hcount]
      cases ((List.range g.writeIterations.toNatClampNeg).foldlM _ _ :
        Except Stop (Nat × Heap)) <;> rfl

end

/-! ### Layouts -/

/-- The memory of the objects is live, and no two of them overlap. -/
structure Layout (size : UInt64) (objs : List UInt64) (h : Heap) : Prop where
  covers : ∀ o ∈ objs, h.Covers (object size o)
  apart : objs.Pairwise fun o o' ↦ (object size o).Apart (object size o')

/-- The payloads of the objects. -/
def InPayload (size offset : UInt64) (objs : List UInt64) (x : Nat) : Prop :=
  ∃ o ∈ objs, (payload size offset o).Has x

section

variable {size offset : UInt64} {objs : List UInt64} {rs : List Region} {W : Nat → Prop}
  {h h' : Heap}

theorem object_has {o : UInt64} {x : Nat} :
    (object size o).Has x ↔ o.toNat ≤ x ∧ x < o.toNat + size.toNat := Iff.rfl

theorem Layout.subset (L : Layout size objs h) {objs' : List UInt64} (hs : objs'.Sublist objs) :
    Layout size objs' h where
  covers o ho := L.covers o (hs.subset ho)
  apart := L.apart.sublist hs

theorem Layout.perm (L : Layout size objs h) {objs' : List UInt64} (hp : objs.Perm objs') :
    Layout size objs' h where
  covers o ho := L.covers o (hp.mem_iff.mpr ho)
  apart := (hp.pairwise_iff fun ha ↦ ha.symm).mp L.apart

/-- Every object is at an address of its own. -/
theorem Layout.nodup (hs : 0 < size.toNat) (L : Layout size objs h) : objs.Nodup := by
  apply L.apart.imp
  rintro o _ hap rfl
  simp only [Region.Apart, object] at hap
  omega

theorem Layout.grows (L : Layout size objs h) (H : Grows rs W h h') : Layout size objs h' where
  covers o ho := H.covers (L.covers o ho)
  apart := L.apart

/-- Objects that are allocated one by one. -/
theorem layout_of_grows (H : Grows (objs.map (object size)) W h h') : Layout size objs h' where
  covers _ ho := ⟨_, H.new_mem_live (List.mem_map_of_mem ho), .refl _⟩
  apart := List.pairwise_map.mp (List.pairwise_append.mp H.pairwise).1

theorem Layout.apart_of_ne (L : Layout size objs h) {o o' : UInt64} (ho : o ∈ objs)
    (ho' : o' ∈ objs) (hne : o ≠ o') : (object size o).Apart (object size o') := by
  have : Std.Symm fun o o' ↦ (object size o).Apart (object size o') := ⟨fun _ _ ↦ .symm⟩
  exact L.apart.forall ho ho' hne

/-- A link of an object is live memory. -/
theorem Layout.covers_link (L : Layout size objs h) {o : UInt64} (ho : o ∈ objs) {k : Nat}
    (hk : k + 8 ≤ size.toNat) : h.Covers ⟨o.toNat + k, 8⟩ := by
  obtain ⟨s, hs, hw⟩ := L.covers o ho
  refine ⟨s, hs, Region.Within.trans ?_ hw⟩
  simp only [Region.Within, object]
  omega

/-- A link is part of the memory of its object. -/
theorem has_of_link {o : UInt64} (ho : o ∈ objs) {k x : Nat} (hk : k + 8 ≤ size.toNat)
    (hx : Region.Has ⟨o.toNat + k, 8⟩ x) : ∃ r ∈ objs.map (object size), r.Has x := by
  refine ⟨_, List.mem_map_of_mem ho, object_has.mpr ?_⟩
  simp only [Region.Has] at hx
  omega

/-- A store to a link of an allocated object. -/
theorem step_link {h'' : Heap} (H : Builds (objs.map (object size)) h h') {o : UInt64}
    (ho : o ∈ objs) {k : Nat} (hk : k + 8 ≤ size.toNat)
    (H' : Grows [] (Region.Has ⟨o.toNat + k, 8⟩) h' h'') :
    Builds (objs.map (object size)) h h'' :=
  H.step H' fun _ hx ↦ has_of_link ho hk hx

/-- Objects that are not stored to keep their headers. -/
theorem Layout.sameHeaders (L : Layout size objs h) (H : Grows rs W h h') {n : Nat}
    (hn : n ≤ size.toNat)
    (hW : ∀ o ∈ objs, ∀ x, o.toNat ≤ x → x < o.toNat + n → ¬ W x) :
    Memory.SameHeaders n objs h.bytes h'.bytes := by
  intro o ho x hx hx'
  obtain ⟨s, hs, hw⟩ := L.covers o ho
  exact H.bytes s hs x (hw.has ⟨hx, by simp only [object]; omega⟩) (hW o ho x hx hx')

/-- A header is not part of a payload. -/
theorem Layout.not_inPayload (L : Layout size objs h) {o : UInt64} (ho : o ∈ objs) {x : Nat}
    (hx : o.toNat ≤ x) (hx' : x < o.toNat + offset.toNat) (hs : offset.toNat ≤ size.toNat) :
    ¬ InPayload size offset objs x := by
  rintro ⟨o', ho', hp⟩
  simp only [Region.Has, payload] at hp
  by_cases he : o = o'
  · subst he
    omega
  · have := (L.apart_of_ne ho ho' he).not_has (object_has.mpr ⟨hx, by omega⟩)
    exact this (object_has.mpr ⟨by omega, by omega⟩)

/-- More visits write more. -/
theorem InWritten.mono {vs vs' : List Visit} {x : Nat} (h : InWritten size offset vs x)
    (hvs : ∀ v ∈ vs, v ∈ vs') : InWritten size offset vs' x := by
  obtain ⟨v, hv, hx⟩ := h
  exact ⟨v, hvs v hv, hx⟩

/-- Visits to objects write payloads of these objects. -/
theorem InWritten.inPayload {vs : List Visit} {x : Nat} (h : InWritten size offset vs x)
    (hvs : ∀ v ∈ vs, v.object ∈ objs) : InPayload size offset objs x := by
  obtain ⟨v, hv, -, hx⟩ := h
  exact ⟨v.object, hvs v hv, hx⟩

/-- Visits keep the headers of all objects. -/
theorem Layout.sameHeaders_visits (L : Layout size objs h) {vs : List Visit}
    (hvs : ∀ v ∈ vs, v.object ∈ objs) (H : Grows [] (InWritten size offset vs) h h')
    (hs : offset.toNat ≤ size.toNat) : Memory.SameHeaders offset.toNat objs h.bytes h'.bytes := by
  apply L.sameHeaders H hs
  intro o ho x hx hx' hw
  exact L.not_inPayload ho hx hx' hs (hw.inPayload hvs)

/-- Objects that are still live keep their headers. -/
theorem sameHeaders_of_shrinks (H : Shrinks rs h h') (hl : ∀ o ∈ objs, object size o ∈ h'.live)
    {n : Nat} (hn : n ≤ size.toNat) : Memory.SameHeaders n objs h.bytes h'.bytes := by
  intro o ho x hx hx'
  exact H.bytes _ (hl o ho) x ⟨hx, by simp only [object]; omega⟩

end

/-! ### Arrays of objects -/

/-- Object `i` of an array. -/
def elementAt (start size : UInt64) (i : Nat) : UInt64 := start + UInt64.ofNat i * size

section

variable {start size : UInt64}

theorem elementAt_zero (start size : UInt64) : elementAt start size 0 = start := by
  simp [elementAt]

theorem elementAt_succ (start size : UInt64) (i : Nat) :
    elementAt start size (i + 1) = elementAt start size i + size := by
  simp only [elementAt, UInt64.ofNat_add]
  grind

variable {n : Nat} (hn : start.toNat + size.toNat * n ≤ 2 ^ 64) (hs : 0 < size.toNat)
include hn hs

/-- The array does not wrap around the address space. -/
theorem toNat_elementAt {i : Nat} (hi : i < n) :
    (elementAt start size i).toNat = start.toNat + size.toNat * i := by
  have hle : size.toNat * (i + 1) ≤ size.toNat * n := Nat.mul_le_mul_left _ hi
  have hin : size.toNat * (i + 1) = size.toNat * i + size.toNat := Nat.mul_succ _ _
  have hi' : i ≤ size.toNat * i := Nat.le_mul_of_pos_left i hs
  have hmul : (UInt64.ofNat i * size).toNat = size.toNat * i := by
    rw [UInt64.toNat_mul, UInt64.toNat_ofNat', Nat.mod_eq_of_lt (by omega : i < 2 ^ 64),
      Nat.mul_comm, Nat.mod_eq_of_lt (by omega)]
  rw [elementAt, UInt64.toNat_add, hmul, Nat.mod_eq_of_lt (by omega)]

/-- The objects of an array fill its memory. -/
theorem layout_elementAt {h : Heap} (hc : h.Covers ⟨start.toNat, size.toNat * n⟩) :
    Layout size ((List.range n).map (elementAt start size)) h where
  covers := by
    intro o ho
    obtain ⟨i, hi, rfl⟩ := List.mem_map.mp ho
    have hi := List.mem_range.mp hi
    have hle : size.toNat * (i + 1) ≤ size.toNat * n := Nat.mul_le_mul_left _ hi
    obtain ⟨s, hs', hw⟩ := hc
    refine ⟨s, hs', Region.Within.trans ?_ hw⟩
    simp only [Region.Within, object, toNat_elementAt hn hs hi]
    rw [Nat.mul_succ] at hle
    omega
  apart := by
    refine List.pairwise_map.mpr (List.pairwise_lt_range.imp_of_mem ?_)
    intro i j hi hj hij
    have hi := List.mem_range.mp hi
    have hj := List.mem_range.mp hj
    have hle : size.toNat * (i + 1) ≤ size.toNat * j := Nat.mul_le_mul_left _ hij
    left
    simp only [object, toNat_elementAt hn hs hi, toNat_elementAt hn hs hj]
    rw [Nat.mul_succ] at hle
    omega

/-- An object of an array is not at address 0. -/
theorem elementAt_ne_zero (h0 : 0 < start.toNat) {i : Nat} (hi : i < n) :
    elementAt start size i ≠ 0 := by
  intro he
  have := toNat_elementAt hn hs hi
  rw [he] at this
  have hz : (0 : UInt64).toNat = 0 := rfl
  omega

section

variable {W : Nat → Prop} {h h' h'' : Heap} (H : Grows [⟨start.toNat, size.toNat * n⟩] W h h')
include H

/-- The objects of an allocated array. -/
theorem layout_of_grows_array :
    Layout size ((List.range n).map (elementAt start size)) h' :=
  layout_elementAt hn hs ⟨_, H.new_mem_live List.mem_cons_self, .refl _⟩

variable {i k : Nat} (hi : i < n) (hk : k + 8 ≤ size.toNat)
include hi hk

theorem covers_link_elementAt : h'.Covers ⟨(elementAt start size i).toNat + k, 8⟩ :=
  (layout_of_grows_array hn hs H).covers_link (List.mem_map_of_mem (List.mem_range.mpr hi)) hk

/-- A store to a link of an object of an allocated array. -/
theorem step_link_elementAt
    (H' : Grows [] (Region.Has ⟨(elementAt start size i).toNat + k, 8⟩) h' h'') :
    Grows [⟨start.toNat, size.toNat * n⟩] W h h'' := by
  apply H.step H'
  intro x hx
  have hle : size.toNat * (i + 1) ≤ size.toNat * n := Nat.mul_le_mul_left _ hi
  rw [Nat.mul_succ] at hle
  refine .inr ⟨_, List.mem_cons_self, ?_⟩
  simp only [Region.Has, toNat_elementAt hn hs hi] at hx ⊢
  omega

end

end

section

variable {E : Stop → Prop} (A : Allocator) {size nelem : UInt64}

/-- The memory of a collection of `int` many objects of an `int` size is that of a word. -/
theorem size_mul_lt (hs : size.toNat < 2 ^ 31) (hn : nelem.toNat < 2 ^ 31) :
    size.toNat * nelem.toNat < 2 ^ 64 :=
  (Nat.mul_lt_mul'' hs hn).trans (by decide)

variable (hm : size.toNat * nelem.toNat < 2 ^ 64)
include hm

private theorem toNat_size_mul : (size * nelem).toNat = size.toNat * nelem.toNat := by
  rw [UInt64.toNat_mul, Nat.mod_eq_of_lt hm]

/-- The memory of a collection that is allocated at once. -/
theorem allocate_array_spec (hE : E .outOfMemory) (h : Heap) (hs0 : 0 < size.toNat)
    (hn0 : 0 < nelem.toNat) :
    Yields E (allocate A h (size * nelem)) fun (start, h') ↦
      0 < start.toNat ∧ start.toNat + size.toNat * nelem.toNat ≤ 2 ^ 64 ∧
        Grows [⟨start.toNat, size.toNat * nelem.toNat⟩] (fun _ ↦ False) h h' := by
  have hmul := toNat_size_mul hm
  have hpos : 0 < size * nelem := by
    apply UInt64.lt_iff_toNat_lt.mpr
    rw [hmul]
    exact Nat.mul_pos hs0 hn0
  apply (allocate_spec hE A h hpos).imp
  rintro ⟨start, h'⟩ ⟨hv, H⟩
  simp only [object, hmul] at hv H
  exact ⟨hv.start_pos, hv.le, H.grows⟩

/-- The memory of a collection that was allocated at once is freed at once. -/
theorem deallocate_array_spec {start : UInt64} {h : Heap}
    (ha : ⟨start.toNat, size.toNat * nelem.toNat⟩ ∈ h.live) :
    Yields E (deallocate A h start) (Shrinks [⟨start.toNat, size.toNat * nelem.toNat⟩] h) := by
  have hobj : object (size * nelem) start = ⟨start.toNat, size.toNat * nelem.toNat⟩ := by
    rw [object, toNat_size_mul hm]
  rw [← hobj] at ha ⊢
  exact deallocate_spec A ha

end
end Acdc.Objects
