import Acdc.Base.Inventory
import Acdc.Context

/-!
# Heap-classes

The heap-class API of `src/acdc.c:106–168` and the fetch of shared classes of
`src/acdc.c:386–411`. Insertion, lookup and removal each compute their own index into
the wheel. The clock is an `unsigned int`; the `int` sum of the modulus is the exact
integer, which is the C value wherever the C expression is defined. An index outside
the array leaves the behaviour undefined.
-/

namespace Acdc

open Inventory

variable {σ : Type} (g : GOptions)

/-- Index for insertion; `src/acdc.c:109–113`. -/
def heapClassInsertIndex (time lifetime : UInt32) : Nat :=
  let liveness := lifetime - g.deallocationDelay.toUInt32
  (time.toNat + liveness.toNat) % g.wheelSize

/-- Index of a remaining liveness; `src/acdc.c:133–134`. -/
def heapClassGetIndex (time remainingLiveness : UInt32) : Nat :=
  (time + remainingLiveness).toNat % g.wheelSize

/-- Index of the expired lifetime-class; `src/acdc.c:145–150`. -/
def heapClassRemoveIndex (time : UInt32) : Nat :=
  let deleteIndex : Int := (time.toNat % g.wheelSize : Nat)
  let deleteIndex := deleteIndex - g.deallocationDelay.toInt
  (if deleteIndex < 0 then deleteIndex + g.wheelSize else deleteIndex).toNat

/-- Insertion of a class at the end of its lifetime-class; `src/acdc.c:106–122`. -/
def heapClassInsert (i : Nat) (mc : MContext σ) (heapClass : HeapClass) (c : Slot)
    (lifetime : UInt32) : Except Stop (HeapClass × MContext σ) := do
  let insertIndex := heapClassInsertIndex g mc.time lifetime
  let (node, mc) ← getLSCNode g i mc
  if insertIndex < heapClass.length then
    return (heapClass.modify insertIndex (· ++ [⟨node, c⟩]), mc)
  else .error .undefined

/-- Lifetime-class of a remaining liveness; `src/acdc.c:128–136`. -/
def heapClassGetLClass (time : UInt32) (heapClass : HeapClass) (remainingLiveness : Nat) :
    LClass :=
  (heapClass[heapClassGetIndex g time (UInt32.ofNat remainingLiveness)]?).getD []

/-- Splice of one shared lifetime-class to the local one of the same index
relative to the clock; the loop body of `src/acdc.c:396–408`. -/
def fetchLClass (time : UInt32) (p : HeapClass × HeapClass) (i : Nat) :
    HeapClass × HeapClass :=
  match p.2[i]? with
  | some (node :: remote) =>
    (p.1.modify (heapClassGetIndex g time (UInt32.ofNat i)) (· ++ node :: remote), p.2.set i [])
  | _ => p

/-- Fetch of all shared lifetime-classes into the local heap-class; `src/acdc.c:386–411`. -/
def getSharedLClasses (time : UInt32) (heapClass shared : HeapClass) : HeapClass × HeapClass :=
  (List.range g.life).foldl (fetchLClass g time) (heapClass, shared)

/-! ### Indices -/

section Index

variable {g} (hM : 0 < g.maxLiveness.toInt) (hD : 0 ≤ g.deallocationDelay.toInt)
include hM hD

/-- The wheel has an entry. -/
theorem wheelSize_pos : 0 < g.wheelSize := by
  have := GOptions.life_pos_iff.mpr hM
  rw [g.wheelSize_eq hM hD]
  omega

/-- Insertion stays inside the wheel. -/
theorem heapClassInsertIndex_lt (time lifetime : UInt32) :
    heapClassInsertIndex g time lifetime < g.wheelSize :=
  Nat.mod_lt _ (wheelSize_pos hM hD)

/-- Lookup stays inside the wheel. -/
theorem heapClassGetIndex_lt (time remainingLiveness : UInt32) :
    heapClassGetIndex g time remainingLiveness < g.wheelSize :=
  Nat.mod_lt _ (wheelSize_pos hM hD)

/-- Removal stays inside the wheel. -/
theorem heapClassRemoveIndex_lt (time : UInt32) :
    heapClassRemoveIndex g time < g.wheelSize := by
  have hw := g.wheelSize_eq hM hD
  have hl := GOptions.life_pos_iff.mpr hM
  have hm := Nat.mod_lt time.toNat (wheelSize_pos hM hD)
  simp only [heapClassRemoveIndex, g.toInt_deallocationDelay hD]
  split <;> omega

/-- The entry removed at a tick is the entry of the tick `deallocation_delay` earlier. -/
theorem heapClassRemoveIndex_add_delay (time : UInt32) :
    (heapClassRemoveIndex g time + g.delay) % g.wheelSize = time.toNat % g.wheelSize := by
  have hw := g.wheelSize_eq hM hD
  have hl := GOptions.life_pos_iff.mpr hM
  have hm := Nat.mod_lt time.toNat (wheelSize_pos hM hD)
  simp only [heapClassRemoveIndex, g.toInt_deallocationDelay hD]
  split
  · next h =>
    have he : (((time.toNat % g.wheelSize : Nat) : Int) - g.delay + g.wheelSize).toNat + g.delay =
        time.toNat % g.wheelSize + g.wheelSize := by omega
    rw [he, Nat.add_mod_right, Nat.mod_mod]
  · next h =>
    have he : (((time.toNat % g.wheelSize : Nat) : Int) - g.delay).toNat + g.delay =
        time.toNat % g.wheelSize := by omega
    rw [he, Nat.mod_mod]

omit hM hD

/-- Subtracting the delay from the lifetime recovers the liveness. -/
theorem heapClassInsertIndex_lifetime (time liveness : UInt32) :
    heapClassInsertIndex g time (liveness + g.deallocationDelay.toUInt32) =
      (time.toNat + liveness.toNat) % g.wheelSize := by
  rw [heapClassInsertIndex, UInt32.add_sub_cancel]

/-- Lookup adds the clock without wrapping while the sum fits an `unsigned int`. -/
theorem heapClassGetIndex_ofNat {time : UInt32} {i : Nat} (h : time.toNat + i < 2 ^ 32) :
    heapClassGetIndex g time (UInt32.ofNat i) = (time.toNat + i) % g.wheelSize := by
  rw [heapClassGetIndex, UInt32.toNat_add, UInt32.toNat_ofNat',
    Nat.mod_eq_of_lt (show i < 2 ^ 32 by omega), Nat.mod_eq_of_lt h]

end Index

/-! ### Nodes of the arrays -/

/-- What a successful insertion does. -/
theorem heapClassInsert_cases {i : Nat} {mc mc' : MContext σ} {hc hc' : HeapClass} {c : Slot}
    {lifetime : UInt32} (h : heapClassInsert g i mc hc c lifetime = .ok (hc', mc')) :
    ∃ node, getLSCNode g i mc = .ok (node, mc') ∧
      heapClassInsertIndex g mc.time lifetime < hc.length ∧
      hc' = hc.modify (heapClassInsertIndex g mc.time lifetime) (· ++ [⟨node, c⟩]) := by
  unfold heapClassInsert at h
  cases hg : getLSCNode g i mc with
  | error e => rw [hg] at h; cases h
  | ok p =>
    obtain ⟨node, m⟩ := p
    simp only [hg] at h
    change (if _ then _ else _) = _ at h
    split at h
    · next hl =>
      obtain ⟨rfl, rfl⟩ := Prod.mk.inj (Except.ok.inj h)
      exact ⟨node, rfl, hl, rfl⟩
    · cases h

/-- An insertion that finds a cached node. -/
theorem heapClassInsert_of_cache (i : Nat) {mc : MContext σ} {heapClass : HeapClass} (c : Slot)
    {lifetime : UInt32} {node : Slot} {cache : List Slot} (hc : mc.nodeCache = node :: cache)
    (hl : heapClassInsertIndex g mc.time lifetime < heapClass.length) :
    heapClassInsert g i mc heapClass c lifetime =
      .ok (heapClass.modify (heapClassInsertIndex g mc.time lifetime) (· ++ [⟨node, c⟩]),
        { mc with nodeCache := cache }) := by
  simp [heapClassInsert, getLSCNode, hc, hl, bind, Except.bind, pure, Except.pure]

/-- One splice adds the shared lifetime-class to the local one and empties it. -/
theorem fetchLClass_eq (time : UInt32) (p : HeapClass × HeapClass) {i : Nat}
    (h : i < p.2.length) :
    fetchLClass g time p i =
      (p.1.modify (heapClassGetIndex g time (UInt32.ofNat i)) (· ++ p.2[i]), p.2.set i []) := by
  unfold fetchLClass
  rw [List.getElem?_eq_getElem h]
  cases hp : p.2[i] with
  | nil =>
    have hs : p.2.set i [] = p.2 := by rw [← hp, List.set_getElem_self]
    have hm : p.1.modify (heapClassGetIndex g time (UInt32.ofNat i)) (· ++ []) = p.1 := by
      simp only [List.append_nil]
      exact List.modify_id ..
    rw [hs, hm]
  | cons node remote => rfl

-- The state of the fetch loop after `k` entries.
private def fetchPrefix (time : UInt32) (heapClass shared : HeapClass) (k : Nat) :
    HeapClass × HeapClass :=
  (List.range k).foldl (fetchLClass g time) (heapClass, shared)

private theorem fetchPrefix_succ (time : UInt32) (heapClass shared : HeapClass) (k : Nat) :
    fetchPrefix g time heapClass shared (k + 1) =
      fetchLClass g time (fetchPrefix g time heapClass shared k) k := by
  simp [fetchPrefix, List.range_succ]

private theorem fetchPrefix_snd (time : UInt32) (heapClass shared : HeapClass) {k : Nat}
    (hk : k ≤ shared.length) :
    (fetchPrefix g time heapClass shared k).2 = List.replicate k [] ++ shared.drop k := by
  induction k with
  | zero => simp [fetchPrefix]
  | succ k ih =>
    have ih := ih (by omega)
    have hl : k < (fetchPrefix g time heapClass shared k).2.length := by
      rw [ih, List.length_append, List.length_replicate, List.length_drop]
      omega
    rw [fetchPrefix_succ, fetchLClass_eq g time _ hl]
    simp only [ih]
    rw [List.set_append_right _ _ (by simp), List.length_replicate, Nat.sub_self,
      List.drop_eq_getElem_cons (by omega : k < shared.length), List.set_cons_zero,
      List.replicate_succ', List.append_assoc, List.singleton_append]

private theorem fetchPrefix_succ_eq (time : UInt32) (heapClass shared : HeapClass) {k : Nat}
    (hk : k < shared.length) :
    fetchPrefix g time heapClass shared (k + 1) =
      ((fetchPrefix g time heapClass shared k).1.modify
          (heapClassGetIndex g time (UInt32.ofNat k)) (· ++ shared[k]),
        (fetchPrefix g time heapClass shared k).2.set k []) := by
  have hs := fetchPrefix_snd g time heapClass shared (Nat.le_of_lt hk)
  have hl : k < (fetchPrefix g time heapClass shared k).2.length := by
    rw [hs, List.length_append, List.length_replicate, List.length_drop]
    omega
  have he : (fetchPrefix g time heapClass shared k).2[k] = shared[k] := by
    simp only [hs]
    rw [List.getElem_append_right (by simp)]
    simp
  rw [fetchPrefix_succ, fetchLClass_eq g time _ hl, he]

private theorem length_fetchPrefix_fst (time : UInt32) (heapClass shared : HeapClass) {k : Nat}
    (hk : k ≤ shared.length) :
    (fetchPrefix g time heapClass shared k).1.length = heapClass.length := by
  induction k with
  | zero => rfl
  | succ k ih =>
    rw [fetchPrefix_succ_eq g time heapClass shared hk, List.length_modify, ih (by omega)]

section Fetch

variable {heapClass shared : HeapClass} (time : UInt32) (hs : shared.length = g.life)
include hs

/-- A fetch empties every shared lifetime-class. -/
theorem getSharedLClasses_snd :
    (getSharedLClasses g time heapClass shared).2 = List.replicate g.life [] := by
  have h := fetchPrefix_snd g time heapClass shared (Nat.le_of_eq hs.symm)
  rw [List.drop_of_length_le (by omega), List.append_nil] at h
  exact h

/-- A fetch keeps the number of local lifetime-classes. -/
theorem length_getSharedLClasses_fst :
    (getSharedLClasses g time heapClass shared).1.length = heapClass.length :=
  length_fetchPrefix_fst g time heapClass shared (Nat.le_of_eq hs.symm)

/-- A local lifetime-class gains the shared ones whose relative index leads to it. -/
theorem getSharedLClasses_fst (j : Nat) :
    (getSharedLClasses g time heapClass shared).1[j]? =
      heapClass[j]?.map (· ++ (List.range g.life).flatMap fun i ↦
        if heapClassGetIndex g time (UInt32.ofNat i) = j then shared.getD i [] else []) := by
  have aux (k : Nat) (hk : k ≤ shared.length) :
      (fetchPrefix g time heapClass shared k).1[j]? =
        heapClass[j]?.map (· ++ (List.range k).flatMap fun i ↦
          if heapClassGetIndex g time (UInt32.ofNat i) = j then shared.getD i [] else []) := by
    induction k with
    | zero => simp [fetchPrefix]
    | succ k ih =>
      rw [fetchPrefix_succ_eq g time heapClass shared hk, List.getElem?_modify, ih (by omega),
        List.range_succ, List.flatMap_append, List.flatMap_singleton,
        List.getD_eq_getElem?_getD, List.getElem?_eq_getElem hk, Option.getD_some]
      by_cases h : heapClassGetIndex g time (UInt32.ofNat k) = j
      · simp [h, Function.comp_def]
      · simp [h]
  exact aux g.life (Nat.le_of_eq hs.symm)

/-- A fetch moves all nodes of the shared array to the local one. -/
theorem bag_getSharedLClasses (hw : g.HasWheel)
    (hh : heapClass.length = g.wheelSize) :
    bag (getSharedLClasses g time heapClass shared).1 = bag heapClass + bag shared := by
  have aux (k : Nat) (hk : k ≤ shared.length) :
      bag (fetchPrefix g time heapClass shared k).1 = bag heapClass + bag (shared.take k) := by
    induction k with
    | zero => simp [fetchPrefix, bag]
    | succ k ih =>
      have hM : 0 < g.life := by omega
      have hi : heapClassGetIndex g time (UInt32.ofNat k) < g.wheelSize := Nat.mod_lt _ (hw hM)
      have hl : bag (shared.take (k + 1)) = bag (shared.take k) + ↑shared[k] := by
        rw [List.take_succ_eq_append_getElem hk, bag, List.flatten_append,
          List.flatten_singleton, ← Multiset.coe_add, bag]
      rw [fetchPrefix_succ_eq g time heapClass shared hk, bag_modify_append _ _
        (by rw [length_fetchPrefix_fst g time heapClass shared (by omega), hh]; exact hi),
        ih (by omega), hl, add_assoc]
  have h := aux g.life (Nat.le_of_eq hs.symm)
  rw [List.take_of_length_le (by omega)] at h
  exact h

end Fetch

end Acdc
