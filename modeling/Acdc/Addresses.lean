import Acdc.Context

/-!
# Addresses of the slots

Where `get_LSCNode` (`src/acdc.c:77–89`) and `get_LSClass` (`src/lifetime-size-classes.c:41–59`)
carve a slot that no cache holds: at the counter of the buffer times the stride of its slots. The
product is an `int` for the nodes and an `unsigned int` for the classes, which overflow long
before the sizes that the options accept.
-/

namespace Acdc

/-- A buffer of slots, with the number of those that were carved out of it. -/
structure SlotBuffer where
  memory : UInt64
  counter : Int32
  deriving DecidableEq, Repr

/-- `src/acdc.c:77–85`. -/
def carveLSCNode (nodeBufferSize : UInt64) (b : SlotBuffer) : Except Stop (UInt64 × SlotBuffer) :=
  if nodeBufferSize ≤ b.counter.toInt64.toUInt64 then .error .nodeBufferOverflow
  else do
    let offset ← intResult (b.counter.toInt * l1LineSz.toInt)
    let counter ← intResult (b.counter.toInt + 1)
    return (b.memory + offset.toInt64.toUInt64, { b with counter := counter })

/-- `src/lifetime-size-classes.c:41–52`. The product is of type `unsigned int`. -/
def carveLSClass (classBufferSize : UInt64) (b : SlotBuffer) :
    Except Stop (UInt64 × SlotBuffer) :=
  if classBufferSize ≤ b.counter.toInt64.toUInt64 then .error .classBufferOverflow
  else do
    let offset := b.counter.toUInt32 * lsClassStride
    let counter ← intResult (b.counter.toInt + 1)
    return (b.memory + offset.toUInt64, { b with counter := counter })

/-- The next `n` fresh slots. -/
def carveSlots (carve : SlotBuffer → Except Stop (UInt64 × SlotBuffer)) :
    Nat → SlotBuffer → Except Stop (List UInt64 × SlotBuffer)
  | 0, b => .ok ([], b)
  | n + 1, b => do
    let (slot, b) ← carve b
    let (slots, b) ← carveSlots carve n b
    return (slot :: slots, b)

/-- The slots of a buffer lie in it one behind the other. -/
structure InOrder (size memory : UInt64) (slots : List UInt64) : Prop where
  length : slots.length = size.toNat
  offset : ∀ k (hk : k < slots.length), (slots[k] - memory).toNat = 64 * k
  apart : slots.Pairwise fun p q ↦ (p - memory).toNat + 64 ≤ (q - memory).toNat
  inside : ∀ p ∈ slots, (p - memory).toNat + 64 ≤ (l1LineSz.toInt64.toUInt64 * size).toNat

/-- All slots of a buffer are carved, in order. -/
def CarvesInOrder (carve : SlotBuffer → Except Stop (UInt64 × SlotBuffer))
    (size memory : UInt64) : Prop :=
  ∃ slots b, carveSlots carve size.toNat ⟨memory, 0⟩ = .ok (slots, b) ∧ InOrder size memory slots

variable {size memory : UInt64} {k n : Nat}

/-! ### One slot -/

private theorem intResult_succ (hk : k + 1 < 2 ^ 31) :
    intResult ((Int32.ofNat k).toInt + 1) = .ok (Int32.ofNat (k + 1)) := by
  rw [Int32.toInt_ofNat_of_lt (by omega), intResult, if_pos ⟨by omega, by omega⟩]
  rfl

private theorem not_limit (hk : k < size.toNat) (hs : size.toNat < 2 ^ 31) :
    ¬ size ≤ (Int32.ofNat k).toInt64.toUInt64 := by
  have hc := toNat_toUInt64 (Int32.toInt_ofNat_of_lt (show k < 2 ^ 31 by omega))
  rw [UInt64.le_iff_toNat_le, hc]
  omega

/-- The product of `get_LSCNode` overflows from `2 ^ 25` on. -/
theorem carveLSCNode_eq (hk : k < size.toNat) (hs : size.toNat < 2 ^ 31) :
    carveLSCNode size ⟨memory, Int32.ofNat k⟩ =
      if k < 2 ^ 25 then .ok (memory + UInt64.ofNat (64 * k), ⟨memory, Int32.ofNat (k + 1)⟩)
      else .error .undefined := by
  have hv := Int32.toInt_ofNat_of_lt (show k < 2 ^ 31 by omega)
  have hl : l1LineSz.toInt = 64 := rfl
  rw [carveLSCNode, if_neg (not_limit hk hs), intResult_succ (by omega), hv, hl]
  split
  · next h =>
    have hprod : intResult ((k : Int) * 64) = .ok (Int32.ofNat (64 * k)) := by
      rw [intResult, if_pos ⟨by omega, by omega⟩, Int.mul_comm]
      rfl
    have hofs : (Int32.ofNat (64 * k)).toInt64.toUInt64 = UInt64.ofNat (64 * k) := by
      rw [← UInt64.toNat_inj,
        toNat_toUInt64 (Int32.toInt_ofNat_of_lt (show 64 * k < 2 ^ 31 by omega))]
      exact (UInt64.toNat_ofNat_of_lt' (show 64 * k < 2 ^ 64 by omega)).symm
    rw [hprod]
    simp only [bind, Except.bind, pure, Except.pure, hofs]
  · next h =>
    have hprod : intResult ((k : Int) * 64) = .error .undefined := by
      apply if_neg
      intro hf
      have hhi := hf.2
      omega
    rw [hprod]
    rfl

/-- The product of `get_LSClass` wraps at `2 ^ 32`. -/
theorem carveLSClass_eq (hk : k < size.toNat) (hs : size.toNat < 2 ^ 31) :
    carveLSClass size ⟨memory, Int32.ofNat k⟩ =
      .ok (memory + UInt64.ofNat (64 * k % 2 ^ 32), ⟨memory, Int32.ofNat (k + 1)⟩) := by
  have hprod : ((Int32.ofNat k).toUInt32 * lsClassStride).toUInt64 =
      UInt64.ofNat (64 * k % 2 ^ 32) := by
    have hc : (Int32.ofNat k).toUInt32.toNat = k := by
      have hv := Int32.toInt_ofNat_of_lt (show k < 2 ^ 31 by omega)
      rw [toNat_toUInt32 (by omega), hv, Int.toNat_natCast]
    have hl : lsClassStride.toNat = 64 := rfl
    rw [← UInt64.toNat_inj, UInt32.toNat_toUInt64, UInt32.toNat_mul, hc, hl, Nat.mul_comm]
    exact (UInt64.toNat_ofNat_of_lt' (show 64 * k % 2 ^ 32 < 2 ^ 64 by omega)).symm
  rw [carveLSClass, if_neg (not_limit hk hs), intResult_succ (by omega)]
  simp only [bind, Except.bind, pure, Except.pure, hprod]

private theorem limit_of_eq (hk : k = size.toNat) (hs : size.toNat < 2 ^ 31) :
    size ≤ (Int32.ofNat k).toInt64.toUInt64 := by
  have hc := toNat_toUInt64 (Int32.toInt_ofNat_of_lt (show k < 2 ^ 31 by omega))
  rw [UInt64.le_iff_toNat_le, hc]
  exact Nat.le_of_eq hk.symm

section Threads

variable {σ : Type} {g : GOptions} {mc : MContext σ}

/-- A fresh node of a thread is the slot at the address that `get_LSCNode` carves. -/
theorem carveLSCNode_eq_getLSCNode (i : Nat) (hc : mc.nodeCache = [])
    (hs : g.nodeBufferSize.toNat < 2 ^ 31) (hk : mc.nodeBufferCounter ≤ g.nodeBufferSize.toNat) :
    carveLSCNode g.nodeBufferSize ⟨memory, Int32.ofNat mc.nodeBufferCounter⟩ =
      (getLSCNode g i mc).map fun (node, mc) ↦
        (memory + UInt64.ofNat (64 * node.index), ⟨memory, Int32.ofNat mc.nodeBufferCounter⟩) := by
  unfold getLSCNode
  rw [hc]
  dsimp only
  obtain hlt | he := Nat.lt_or_eq_of_le hk
  · rw [carveLSCNode_eq hlt hs, if_neg (Nat.not_le.mpr hlt), nodeSlot_eq]
    split <;> rfl
  · rw [carveLSCNode, if_pos (limit_of_eq he hs), if_pos (Nat.le_of_eq he.symm)]
    rfl

/-- A fresh class slot of a thread is the slot at the address that `get_LSClass` carves, also where
the product wraps. -/
theorem carveLSClass_eq_getLSClass (i : Nat) (hc : mc.classCache = [])
    (hs : g.classBufferSize.toNat < 2 ^ 31)
    (hk : mc.classBufferCounter ≤ g.classBufferSize.toNat) :
    carveLSClass g.classBufferSize ⟨memory, Int32.ofNat mc.classBufferCounter⟩ =
      (getLSClass g i mc).map fun (c, mc) ↦
        (memory + UInt64.ofNat (64 * c.index), ⟨memory, Int32.ofNat mc.classBufferCounter⟩) := by
  unfold getLSClass
  rw [hc]
  dsimp only
  obtain hlt | he := Nat.lt_or_eq_of_le hk
  · have hofs : 64 * mc.classBufferCounter % 2 ^ 32 = 64 * (mc.classBufferCounter % 2 ^ 26) := by
      omega
    rw [carveLSClass_eq hlt hs, if_neg (Nat.not_le.mpr hlt), classSlot_eq, hofs]
    rfl
  · rw [carveLSClass, if_pos (limit_of_eq he hs), if_pos (Nat.le_of_eq he.symm)]
    rfl

end Threads

/-! ### All slots -/

private theorem carveSlots_eq (carve : SlotBuffer → Except Stop (UInt64 × SlotBuffer))
    (f : Nat → UInt64) (b : Nat → SlotBuffer) (j n : Nat)
    (h : ∀ k, j ≤ k → k < j + n → carve (b k) = .ok (f k, b (k + 1))) :
    carveSlots carve n (b j) = .ok ((List.range' j n).map f, b (j + n)) := by
  induction n generalizing j with
  | zero => rfl
  | succ n ih =>
    have hrest := ih (j + 1) fun k hj hk ↦ h k (by omega) (by omega)
    rw [carveSlots, h j le_rfl (by omega)]
    simp only [bind, Except.bind, hrest, pure, Except.pure]
    rw [List.range'_succ, List.map_cons, show j + 1 + n = j + (n + 1) by omega]

private theorem carveSlots_error {carve : SlotBuffer → Except Stop (UInt64 × SlotBuffer)}
    {b b' : SlotBuffer} {slots : List UInt64} {e : Stop}
    (h : carveSlots carve k b = .ok (slots, b')) (he : carve b' = .error e) (hk : k < n) :
    carveSlots carve n b = .error e := by
  induction k generalizing b slots n with
  | zero =>
    cases h
    obtain ⟨m, rfl⟩ := Nat.exists_eq_add_of_le' hk
    rw [carveSlots, he]
    rfl
  | succ k ih =>
    obtain ⟨m, rfl⟩ := Nat.exists_eq_add_of_le' (Nat.zero_lt_of_lt hk)
    rw [carveSlots] at h ⊢
    cases hc : carve b with
    | error e' =>
      rw [hc] at h
      cases h
    | ok p =>
      rw [hc] at h
      simp only [bind, Except.bind] at h ⊢
      cases hr : carveSlots carve k p.2 with
      | error e' =>
        rw [hr] at h
        cases h
      | ok q =>
        rw [hr] at h
        obtain ⟨-, rfl⟩ := Prod.mk.inj (Except.ok.inj h)
        rw [ih hr (by omega)]

private theorem toNat_offset (hk : 64 * k < 2 ^ 64) :
    (memory + UInt64.ofNat (64 * k) - memory).toNat = 64 * k := by
  rw [UInt64.add_comm, UInt64.add_sub_cancel]
  exact UInt64.toNat_ofNat_of_lt' hk

private theorem inOrder_multiples (hs : size.toNat < 2 ^ 31) :
    InOrder size memory
      ((List.range' 0 size.toNat).map fun k ↦ memory + UInt64.ofNat (64 * k)) := by
  have hmem {k : Nat} (hk : k ∈ List.range' 0 size.toNat) : k < size.toNat := by
    rw [List.mem_range'_1] at hk
    omega
  have hsize : (l1LineSz.toInt64.toUInt64 * size).toNat = 64 * size.toNat := by
    have hl : l1LineSz.toInt64.toUInt64.toNat = 64 := rfl
    rw [UInt64.toNat_mul, hl]
    exact Nat.mod_eq_of_lt (by omega)
  constructor
  · rw [List.length_map, List.length_range']
  · intro k hk
    rw [List.length_map, List.length_range'] at hk
    rw [List.getElem_map, List.getElem_range', Nat.one_mul, Nat.zero_add]
    exact toNat_offset (by omega)
  · rw [List.pairwise_iff_getElem]
    intro j k hj hk hlt
    rw [List.length_map, List.length_range'] at hj hk
    rw [List.getElem_map, List.getElem_map, List.getElem_range', List.getElem_range',
      toNat_offset (by omega), toNat_offset (by omega)]
    omega
  · intro p hp
    obtain ⟨k, hk, rfl⟩ := List.mem_map.mp hp
    have hk := hmem hk
    rw [toNat_offset (by omega), hsize]
    omega

private theorem carvesInOrder_node_iff (hs : size.toNat < 2 ^ 31) :
    CarvesInOrder (carveLSCNode size) size memory ↔ size.toNat ≤ 2 ^ 25 := by
  have hrun {n : Nat} (hn : n ≤ size.toNat) (hn' : n ≤ 2 ^ 25) :=
    carveSlots_eq (carveLSCNode size) (fun k ↦ memory + UInt64.ofNat (64 * k))
      (fun k ↦ ⟨memory, Int32.ofNat k⟩) 0 n fun k _ hk ↦ by
        rw [carveLSCNode_eq (by omega) hs, if_pos (by omega)]
  constructor
  · intro ⟨slots, b, hc, _⟩
    by_contra hlt
    have hstop : carveLSCNode size ⟨memory, Int32.ofNat (0 + 2 ^ 25)⟩ = .error .undefined := by
      rw [carveLSCNode_eq (by omega) hs, if_neg (by omega)]
    have he := carveSlots_error (hrun (by omega) le_rfl) hstop (show 2 ^ 25 < size.toNat by omega)
    exact absurd (hc.symm.trans he) nofun
  · intro hle
    exact ⟨_, _, hrun le_rfl hle, inOrder_multiples hs⟩

private theorem carvesInOrder_class_iff (hs : size.toNat < 2 ^ 31) :
    CarvesInOrder (carveLSClass size) size memory ↔ size.toNat ≤ 2 ^ 26 := by
  have hrun := carveSlots_eq (carveLSClass size)
    (fun k ↦ memory + UInt64.ofNat (64 * k % 2 ^ 32)) (fun k ↦ ⟨memory, Int32.ofNat k⟩) 0
    size.toNat fun k _ hk ↦ carveLSClass_eq (by omega) hs
  constructor
  · intro ⟨slots, b, hc, ho⟩
    by_contra hlt
    obtain ⟨rfl, -⟩ := Prod.mk.inj (Except.ok.inj (hc.symm.trans hrun))
    have hlen : 2 ^ 26 < ((List.range' 0 size.toNat).map
        fun k ↦ memory + UInt64.ofNat (64 * k % 2 ^ 32)).length := by
      rw [ho.length]
      omega
    -- slot `2 ^ 26` is slot 0 again
    have hwrap := ho.offset (2 ^ 26) hlen
    rw [List.getElem_map, List.getElem_range'] at hwrap
    have hindex : 64 * (0 + 1 * 2 ^ 26) % 2 ^ 32 = 64 * 0 := by decide
    rw [hindex, toNat_offset (by decide)] at hwrap
    exact absurd hwrap (by decide)
  · intro hle
    refine ⟨_, _, hrun, ?_⟩
    have hmap : (List.range' 0 size.toNat).map
        (fun k ↦ memory + UInt64.ofNat (64 * k % 2 ^ 32)) =
        (List.range' 0 size.toNat).map fun k ↦ memory + UInt64.ofNat (64 * k) := by
      apply List.map_congr_left
      intro k hk
      rw [List.mem_range'_1] at hk
      rw [Nat.mod_eq_of_lt (by omega)]
    rw [hmap]
    exact inOrder_multiples hs

/-- The slots of a buffer are carved in order if and only if it has at most `2 ^ 25` nodes, and
`2 ^ 26` classes respectively. -/
theorem carvesInOrder_iff {nodeBufferSize classBufferSize : UInt64}
    (hn : nodeBufferSize.toNat < 2 ^ 31) (hc : classBufferSize.toNat < 2 ^ 31) (memory : UInt64) :
    (CarvesInOrder (carveLSCNode nodeBufferSize) nodeBufferSize memory ↔
      nodeBufferSize.toNat ≤ 2 ^ 25) ∧
    (CarvesInOrder (carveLSClass classBufferSize) classBufferSize memory ↔
      classBufferSize.toNat ≤ 2 ^ 26) :=
  ⟨carvesInOrder_node_iff hn, carvesInOrder_class_iff hc⟩

/-- Buffers of four slots. -/
theorem carvesInOrder_iff_four :
    CarvesInOrder (carveLSCNode 4) 4 64 ∧ CarvesInOrder (carveLSClass 4) 4 320 :=
  ⟨(carvesInOrder_iff (by decide) (by decide : (4 : UInt64).toNat < 2 ^ 31) 64).1.mpr (by decide),
    (carvesInOrder_iff (by decide : (4 : UInt64).toNat < 2 ^ 31) (by decide) 320).2.mpr
      (by decide)⟩

/-- The last of `2 ^ 25 + 1` nodes is at no defined address. -/
theorem not_forall_carvesInOrder :
    ¬ ∀ size memory : UInt64, 1 ≤ size.toNat → size.toNat < 2 ^ 31 →
      CarvesInOrder (carveLSCNode size) size memory ∧
        CarvesInOrder (carveLSClass size) size memory := by
  intro h
  have hn := (h 33554433 64 (by decide) (by decide)).1
  rw [carvesInOrder_node_iff (by decide)] at hn
  exact absurd hn (by decide)

end Acdc
