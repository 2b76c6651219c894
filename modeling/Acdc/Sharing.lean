import Acdc.Base.TimingWheel
import Acdc.Machine

/-!
# Shared heap-classes

A sender indexes the shared heap-class of a receiver by the tick of expiry,
`src/acdc.c:106–122,356–375`. The receiver walks it by remaining liveness and adds its own
clock, `src/acdc.c:386–411`. The array has `max_liveness` entries, while the index of the
sender is reduced modulo `max_liveness + deallocation_delay`. What follows from the two
mismatches is stated here for all clocks and livenesses.
-/

namespace Acdc

open Inventory TimingWheel

variable {σ : Type} {g : GOptions}

/-- The class `c` sits in entry `k` of a heap-class and in no other. -/
def SitsIn (heapClass : HeapClass) (c : Slot) (k : Nat) : Prop :=
  ∀ j, (∃ l, heapClass[j]? = some l ∧ ∃ node ∈ l, node.lsClass = c) ↔ j = k

/-- The heap-class after insertions of other classes than `c`. -/
def Extends (c : Slot) (before after : HeapClass) : Prop :=
  ∀ k : Nat, ∃ others : LClass, after[k]? = before[k]?.map (· ++ others) ∧
    ∀ node ∈ others, node.lsClass ≠ c

/-- No insertion at all. -/
theorem Extends.refl (c : Slot) (heapClass : HeapClass) : Extends c heapClass heapClass :=
  fun _ ↦ ⟨[], by simp, by simp⟩

/-- Insertions keep the number of entries. -/
theorem Extends.length_eq {before after : HeapClass} {c : Slot} (h : Extends c before after) :
    after.length = before.length := by
  apply Nat.le_antisymm
  · obtain ⟨others, ho, -⟩ := h before.length
    rw [List.getElem?_eq_none (Nat.le_refl _)] at ho
    exact List.getElem?_eq_none_iff.mp ho
  · obtain ⟨others, ho, -⟩ := h after.length
    rw [List.getElem?_eq_none (Nat.le_refl _)] at ho
    exact List.getElem?_eq_none_iff.mp (Option.map_eq_none_iff.mp ho.symm)

/-- A class sits in one entry at most. -/
theorem SitsIn.unique {heapClass : HeapClass} {c : Slot} {j k : Nat}
    (hj : SitsIn heapClass c j) (hk : SitsIn heapClass c k) : j = k :=
  (hk j).mp ((hj j).mpr rfl)

/-- Insertion puts a new class into the entry of its index. -/
theorem sitsIn_of_insert {i : Nat} {mc mc' : MContext σ} {pool pool' : HeapClass} {c : Slot}
    {lifetime : UInt32} (h : heapClassInsert g i mc pool c lifetime = .ok (pool', mc'))
    (hc : ∀ node ∈ bag pool, node.lsClass ≠ c) :
    SitsIn pool' c (heapClassInsertIndex g mc.time lifetime) := by
  obtain ⟨node, -, hl, rfl⟩ := heapClassInsert_cases g h
  intro j
  rw [List.getElem?_modify]
  constructor
  · rintro ⟨l, hj, n, hn, rfl⟩
    by_contra hne
    obtain ⟨m, hm, rfl⟩ := Option.map_eq_some_iff.mp hj
    rw [if_neg (Ne.symm hne)] at hn
    exact hc n (mem_bag.mpr ⟨m, List.mem_of_getElem? hm, hn⟩) rfl
  · rintro rfl
    exact ⟨_, by rw [List.getElem?_eq_getElem hl]; rfl, ⟨node, c⟩, by simp, rfl⟩

/-- Insertions of other classes leave a class where it sits. -/
theorem SitsIn.extends {before after : HeapClass} {c : Slot} {k : Nat}
    (h : SitsIn before c k) (he : Extends c before after) : SitsIn after c k := by
  intro j
  rw [← h j]
  obtain ⟨others, ha, ho⟩ := he j
  rw [ha]
  constructor
  · rintro ⟨l, hl, node, hn, hc⟩
    obtain ⟨m, hm, rfl⟩ := Option.map_eq_some_iff.mp hl
    rcases List.mem_append.mp hn with hn | hn
    · exact ⟨m, hm, node, hn, hc⟩
    · exact absurd hc (ho node hn)
  · rintro ⟨l, hl, node, hn, hc⟩
    exact ⟨l ++ others, by rw [hl]; rfl, node, List.mem_append_left _ hn, hc⟩

/-- A fetch moves a class from its shared entry to the local entry of the same index
relative to the clock. -/
theorem sitsIn_of_fetch {heapClass shared : HeapClass} {c : Slot} {k : Nat} (time : UInt32)
    (hs : shared.length = g.life)
    (hi : heapClassGetIndex g time (UInt32.ofNat k) < heapClass.length)
    (hk : SitsIn shared c k) (hc : ∀ node ∈ bag heapClass, node.lsClass ≠ c) :
    SitsIn (getSharedLClasses g time heapClass shared).1 c
      (heapClassGetIndex g time (UInt32.ofNat k)) := by
  intro j
  rw [getSharedLClasses_fst g time hs]
  constructor
  · rintro ⟨l, hl, node, hn, rfl⟩
    obtain ⟨m, hm, rfl⟩ := Option.map_eq_some_iff.mp hl
    rcases List.mem_append.mp hn with hn | hn
    · exact absurd rfl (hc node (mem_bag.mpr ⟨m, List.mem_of_getElem? hm, hn⟩))
    · obtain ⟨i, hi', hn⟩ := List.mem_flatMap.mp hn
      split at hn
      · next he =>
        have hil : i < shared.length := by
          rw [hs]
          exact List.mem_range.mp hi'
        rw [List.getD_eq_getElem?_getD, List.getElem?_eq_getElem hil, Option.getD_some] at hn
        rw [← he, (hk i).mp ⟨shared[i], List.getElem?_eq_getElem hil, node, hn, rfl⟩]
      · cases hn
  · rintro rfl
    obtain ⟨l, hl, node, hn, hcn⟩ := (hk k).mpr rfl
    have hkl := (List.getElem?_eq_some_iff.mp hl).1
    refine ⟨_, by rw [List.getElem?_eq_getElem hi]; rfl, node, ?_, hcn⟩
    apply List.mem_append_right
    refine List.mem_flatMap.mpr ⟨k, List.mem_range.mpr (hs ▸ hkl), ?_⟩
    rw [if_pos rfl, List.getD_eq_getElem?_getD, hl]
    exact hn

private theorem add_mod_eq_iff {t k m : Nat} (hk : k < m) : (t + k) % m = k ↔ m ∣ t := by
  rw [← Nat.modEq_zero_iff_dvd]
  constructor
  · intro h
    apply Nat.ModEq.add_right_cancel' k
    rw [Nat.ModEq, h, Nat.zero_add, Nat.mod_eq_of_lt hk]
  · intro h
    have hz := h.add_right k
    rw [Nat.ModEq, Nat.zero_add, Nat.mod_eq_of_lt hk] at hz
    exact hz

section Agreement

variable (hM : 0 < g.maxLiveness.toInt) (hD : g.deallocationDelay = 0)
include hM hD

private theorem wheelSize_eq_life : g.wheelSize = g.life := by
  have h := GOptions.wheelSize_eq hM (by rw [hD]; decide)
  have hd : g.delay = 0 := by rw [GOptions.delay, hD]; rfl
  rw [h, hd, Nat.add_zero]

private theorem removeIndex_eq_insertIndex {time l : UInt32}
    (ht : time.toNat + l.toNat < 2 ^ 32) :
    heapClassRemoveIndex g (time + l) =
      heapClassInsertIndex g time (l + g.deallocationDelay.toUInt32) := by
  have hd : g.delay = 0 := by rw [GOptions.delay, hD]; rfl
  have hD' : 0 ≤ g.deallocationDelay.toInt := by rw [hD]; decide
  have h := heapClassRemoveIndex_add_delay hM hD' (time + l)
  rw [hd, Nat.add_zero, Nat.mod_eq_of_lt (heapClassRemoveIndex_lt hM hD' _),
    UInt32.toNat_add, Nat.mod_eq_of_lt ht] at h
  rw [h, heapClassInsertIndex_lifetime]

/-- A class that is shared and fetched at one clock sits where a direct insertion would put
it, and is removed at its tick of expiry, exactly if the clock is a multiple of
`max_liveness`. -/
theorem shared_agrees_direct_iff {i : Nat} {mc mc' : MContext σ}
    {pool pool' shared heapClass : HeapClass} {c : Slot} {l : UInt32}
    (ht : mc.time.toNat < 2 ^ 31) (hl : 1 ≤ l.toNat ∧ l.toNat ≤ g.life)
    (hp : pool.length = g.life) (hc : ∀ node ∈ bag pool, node.lsClass ≠ c)
    (hins : heapClassInsert g i mc pool c (l + g.deallocationDelay.toUInt32) = .ok (pool', mc'))
    (hext : Extends c pool' shared)
    (hh : heapClass.length = g.wheelSize) (hlc : ∀ node ∈ bag heapClass, node.lsClass ≠ c) :
    (SitsIn (getSharedLClasses g mc.time heapClass shared).1 c
        (heapClassInsertIndex g mc.time (l + g.deallocationDelay.toUInt32)) ∧
      SitsIn (getSharedLClasses g mc.time heapClass shared).1 c
        (heapClassRemoveIndex g (mc.time + l))) ↔ g.life ∣ mc.time.toNat := by
  have hM' := g.life_lt
  have hw := wheelSize_eq_life hM hD
  have hD' : 0 ≤ g.deallocationDelay.toInt := by rw [hD]; decide
  have hk := heapClassInsertIndex_lt hM hD' mc.time (l + g.deallocationDelay.toUInt32)
  have hsit := (sitsIn_of_insert hins hc).extends hext
  have hlen : shared.length = g.life := by
    obtain ⟨node, -, -, rfl⟩ := heapClassInsert_cases g hins
    rw [hext.length_eq, List.length_modify, hp]
  rw [removeIndex_eq_insertIndex hM hD (by omega), and_self]
  generalize heapClassInsertIndex g mc.time (l + g.deallocationDelay.toUInt32) = k at hk hsit ⊢
  have hg : heapClassGetIndex g mc.time (UInt32.ofNat k) = (mc.time.toNat + k) % g.life := by
    rw [heapClassGetIndex_ofNat (by omega), hw]
  have hf := sitsIn_of_fetch mc.time hlen
    (by rw [hh]; exact heapClassGetIndex_lt hM hD' _ _) hsit hlc
  rw [hg] at hf
  rw [← add_mod_eq_iff (hw ▸ hk)]
  constructor
  · intro h
    exact hf.unique h
  · intro h
    rw [h] at hf
    exact hf

end Agreement

/-- Options with two lifetimes and no delay. -/
def twoLifetimes : GOptions := sharingOptions 1 2 0 100

/-- A context with a cached node at a given clock. -/
def sender (time : UInt32) : MContext Int32 :=
  { createMutatorContext twoLifetimes (schrage twoLifetimes) 0 with
    time := time
    nodeCache := [⟨0, 0⟩] }

private theorem insert_sender (time : UInt32) {k : Nat} (hk : k < 2)
    (hi : heapClassInsertIndex twoLifetimes time
      (1 + twoLifetimes.deallocationDelay.toUInt32) = k) :
    heapClassInsert twoLifetimes 0 (sender time) [[], []] ⟨0, 0⟩
        (1 + twoLifetimes.deallocationDelay.toUInt32) =
      .ok ([[], []].modify k (· ++ [⟨⟨0, 0⟩, ⟨0, 0⟩⟩]), { sender time with nodeCache := [] }) := by
  subst hi
  exact heapClassInsert_of_cache twoLifetimes 0 ⟨0, 0⟩ rfl hk

/-- At clock 2 the two paths agree. -/
theorem shared_agrees_direct_iff_two :
    SitsIn (getSharedLClasses twoLifetimes 2 [[], []] [[], [⟨⟨0, 0⟩, ⟨0, 0⟩⟩]]).1 ⟨0, 0⟩
      (heapClassInsertIndex twoLifetimes 2 (1 + twoLifetimes.deallocationDelay.toUInt32)) := by
  have hins := insert_sender 2 (k := 1) (by decide) (by decide +kernel)
  have hdvd : twoLifetimes.life ∣ (sender 2).time.toNat := by decide
  have hempty : ∀ node ∈ bag ([[], []] : HeapClass), node.lsClass ≠ ⟨0, 0⟩ := by decide
  exact ((shared_agrees_direct_iff (l := 1) (by decide) rfl (by decide) (by decide) rfl hempty
    hins (.refl _ _) rfl hempty).mpr hdvd).1

/-- With two lifetimes, a class of liveness 1 shared at clock 1 sits in the wrong entry. -/
theorem not_forall_shared_agrees_direct :
    ¬ ∀ (g : GOptions) (mc mc' : MContext Int32) (pool pool' heapClass : HeapClass) (c : Slot)
      (l : UInt32), 0 < g.maxLiveness.toInt → g.deallocationDelay = 0 →
      mc.time.toNat < 2 ^ 31 → 1 ≤ l.toNat ∧ l.toNat ≤ g.life → pool.length = g.life →
      (∀ node ∈ bag pool, node.lsClass ≠ c) → heapClass.length = g.wheelSize →
      (∀ node ∈ bag heapClass, node.lsClass ≠ c) →
      heapClassInsert g 0 mc pool c (l + g.deallocationDelay.toUInt32) = .ok (pool', mc') →
      SitsIn (getSharedLClasses g mc.time heapClass pool').1 c
        (heapClassInsertIndex g mc.time (l + g.deallocationDelay.toUInt32)) := by
  intro h
  have hins := insert_sender 1 (k := 0) (by decide) (by decide +kernel)
  have hs := h twoLifetimes (sender 1) _ [[], []] _ [[], []] ⟨0, 0⟩ 1 (by decide) rfl (by decide)
    (by decide) rfl (by decide) rfl (by decide) hins
  have hf : (getSharedLClasses twoLifetimes 1 [[], []] [[⟨⟨0, 0⟩, ⟨0, 0⟩⟩], []]).1 =
      [[], [⟨⟨0, 0⟩, ⟨0, 0⟩⟩]] := by decide +kernel
  have hk : heapClassInsertIndex twoLifetimes 1
      (1 + twoLifetimes.deallocationDelay.toUInt32) = 0 := by decide +kernel
  change SitsIn (getSharedLClasses twoLifetimes 1 [[], []] [[⟨⟨0, 0⟩, ⟨0, 0⟩⟩], []]).1
    ⟨0, 0⟩ _ at hs
  rw [hf, show (sender 1).time = 1 from rfl, hk] at hs
  exact absurd ((hs 1).mp ⟨_, rfl, ⟨⟨0, 0⟩, ⟨0, 0⟩⟩, by decide, rfl⟩) (by decide)

/-! ### Bounds of the shared index -/

/-- The index of a shared insertion is in bounds and drained exactly in the first
`max_liveness` ticks of a revolution, and always exactly without delay. -/
theorem sharedIndex_lt_iff (hM : 0 < g.maxLiveness.toInt) (hD : 0 ≤ g.deallocationDelay.toInt)
    (R : Generator σ) (r : Nat) :
    (∀ time l : UInt32, 1 ≤ l.toNat ∧ l.toNat ≤ g.life →
      (heapClassInsertIndex g time (l + g.deallocationDelay.toUInt32) <
          ((runAcdc g R).pools r).length ∧
        heapClassInsertIndex g time (l + g.deallocationDelay.toUInt32) ∈ List.range g.life ↔
      g.delay = 0 ∨ ∃ q, q * (g.life + g.delay) ≤ time.toNat + l.toNat ∧
        time.toNat + l.toNat < q * (g.life + g.delay) + g.life)) ∧
    ((∀ time l : UInt32, 1 ≤ l.toNat ∧ l.toNat ≤ g.life →
      heapClassInsertIndex g time (l + g.deallocationDelay.toUInt32) <
          ((runAcdc g R).pools r).length ∧
        heapClassInsertIndex g time (l + g.deallocationDelay.toUInt32) ∈ List.range g.life) ↔
      g.delay = 0) := by
  have hl : ((runAcdc g R).pools r).length = g.life := List.length_replicate
  have hpos := GOptions.life_pos_iff.mpr hM
  have hlt := g.life_lt
  simp only [hl, List.mem_range, and_self, heapClassInsertIndex_lifetime,
    GOptions.wheelSize_eq hM hD]
  constructor
  · intro time l hll
    rw [mod_lt_iff (Nat.le_add_right g.life g.delay), or_iff_right_of_imp]
    intro h0
    rw [h0, Nat.add_zero]
    have hd := Nat.div_add_mod' (time.toNat + l.toNat) g.life
    have hm := Nat.mod_lt (time.toNat + l.toNat) hpos
    exact ⟨(time.toNat + l.toNat) / g.life, by omega, by omega⟩
  · constructor
    · intro h
      by_contra hne
      have hn : (UInt32.ofNat g.life).toNat = g.life :=
        UInt32.toNat_ofNat_of_lt' (Nat.lt_trans hlt (by decide))
      have hi := h 0 (UInt32.ofNat g.life) ⟨by omega, by omega⟩
      rw [hn, UInt32.toNat_zero, Nat.zero_add, Nat.mod_eq_of_lt (by omega)] at hi
      exact Nat.lt_irrefl _ hi
    · intro h0 time l hll
      rw [h0, Nat.add_zero]
      exact Nat.mod_lt _ hpos


/-- Without delay a class of two lifetimes is shared in bounds at the greatest clock. -/
theorem sharedIndex_lt_iff_no_delay :
    heapClassInsertIndex twoLifetimes 4294967295 (2 + twoLifetimes.deallocationDelay.toUInt32) <
      ((runAcdc twoLifetimes (schrage twoLifetimes)).pools 0).length :=
  ((sharedIndex_lt_iff (by decide) (by decide) (schrage twoLifetimes) 0).2.mpr (by decide)
    4294967295 2 (by decide)).1

/-- One lifetime and a delay of one tick: the first shared insertion is out of bounds. -/
theorem not_forall_sharedIndex_lt :
    ¬ ∀ (g : GOptions) (time l : UInt32) (r : Nat), 0 < g.maxLiveness.toInt →
      0 ≤ g.deallocationDelay.toInt → 1 ≤ l.toNat ∧ l.toNat ≤ g.life →
      heapClassInsertIndex g time (l + g.deallocationDelay.toUInt32) <
          ((runAcdc g (schrage g)).pools r).length ∧
        heapClassInsertIndex g time (l + g.deallocationDelay.toUInt32) ∈ List.range g.life := by
  intro h
  have hi := (h (sharingOptions 1 1 1 100) 0 1 0 (by decide) (by decide) (by decide)).1
  exact absurd hi (by decide +kernel)

end Acdc
