import Acdc.Migration

/-!
# Reference counting

The counter of a placed collection is the number of nodes that lead to it and of
insertions still to be made. A collection is deallocated once, by the thread that drops
the last reference, and is never used afterwards. A collection is leaked exactly when it
is shared with an empty selection of receivers. All this holds while no thread goes round
its class buffer.
-/

namespace Acdc

open Inventory

variable {σ : Type}

/-- Nodes in the local and shared heap-classes of all threads that point to `c`. -/
def nodesTo (g : GOptions) (s : Sys σ) (c : Slot) : Nat :=
  ∑ i ∈ Finset.range g.threads,
    ((s.threads i).mc.heapClass.flatten.countP (·.lsClass = c) +
      (s.pools i).flatten.countP (·.lsClass = c))

/-- Receivers of `c` that a thread has selected and not yet served. -/
def Pc.insertionsOf (c : Slot) : Pc → Nat
  | .sharing c' receivers => if c' = c then receivers.length else 0
  | _ => 0

/-- Selected receivers into whose pool `c` has not yet been inserted. -/
def insertionsTo (g : GOptions) (s : Sys σ) (c : Slot) : Nat :=
  ∑ i ∈ Finset.range g.threads, (s.threads i).pc.insertionsOf c

/-- The sharing of `c` has begun or the unshared path has inserted it. -/
def Placed (g : GOptions) (s : Sys σ) (c : Slot) : Prop :=
  ∀ i < g.threads, (s.threads i).pc ≠ .placing c

/-- Reference counting: the counter of a placed collection counts its references, and only
live collections are used. -/
structure ReferenceCounting (g : GOptions) (s : Sys σ) : Prop where
  counter : ∀ c ∈ live s.log, Placed g s c →
    (s.classes c).referenceCounter.toNat = nodesTo g s c + insertionsTo g s c
  once : ∀ b, (deallocations s.log b).length ≤ (allocations s.log b).length ∧
    (allocations s.log b).length ≤ 1
  deallocates : ∀ i < g.threads, ∀ node, (s.threads i).pc = .deallocating node →
    node.lsClass ∈ live s.log ∧ nodesTo g s node.lsClass = 0 ∧
      insertionsTo g s node.lsClass = 0
  traverses : ∀ i < g.threads, ∀ j node rest,
    (s.threads i).pc = .accessing j (node :: rest) → node.lsClass ∈ live s.log
  decrements : ∀ i < g.threads, ∀ node rest, (s.threads i).pc = .removing →
    (s.threads i).mc.heapClass[heapClassRemoveIndex g (s.threads i).mc.time]? =
      some (node :: rest) → node.lsClass ∈ live s.log
  inserts : ∀ i < g.threads, ∀ c, ((s.threads i).pc = .placing c ∨
    ∃ r receivers, (s.threads i).pc = .sharing c (r :: receivers)) → c ∈ live s.log

variable {g : GOptions} {R : Generator σ} {s : Sys σ}

private theorem count_pending (c : Slot) (pc : Pc) :
    pc.pending.count c = pc.insertionsOf c := by
  cases pc <;> simp [Pc.pending, Pc.insertionsOf, Multiset.count_replicate]

private theorem count_refs (g : GOptions) (s : Sys σ) (c : Slot) :
    ((ledger g s).refs.map LSCNode.lsClass).count c = nodesTo g s c := by
  rw [count_map_eq, ledger, poolNodes, Multiset.countP_add, countP_sum, countP_sum,
    ← Finset.sum_add_distrib]
  simp only [nodesTo, bag, Multiset.coe_countP]

private theorem count_ledger_pending (g : GOptions) (s : Sys σ) (c : Slot) :
    (ledger g s).pending.count c = insertionsTo g s c := by
  simp only [ledger, insertionsTo, Multiset.count_sum', count_pending]

/-- The references of the ledger are the nodes and the insertions still to be made. -/
theorem count_targets (g : GOptions) (s : Sys σ) (c : Slot) :
    ((ledger g s).targets LSCNode.lsClass).count c = nodesTo g s c + insertionsTo g s c := by
  rw [RefCount.State.targets, Multiset.count_add, count_refs, count_ledger_pending]

private theorem not_mem_created {c : Slot} (hc : Placed g s c) : c ∉ (ledger g s).created := by
  intro (hm : c ∈ ∑ i ∈ Finset.range g.threads, (s.threads i).pc.created)
  obtain ⟨i, hi, h⟩ := Multiset.mem_sum.mp hm
  cases hpc : (s.threads i).pc with
  | placing c' =>
    rw [hpc, Pc.created, Multiset.mem_singleton] at h
    exact hc i (Finset.mem_range.mp hi) (h ▸ hpc)
  | _ => simp [hpc, Pc.created] at h

/-- While no class slot is carved twice, reference counting frees every collection at most
once and never too early, for any number of threads and in any interleaving. -/
theorem referenceCounting_of_reachable (hD : 0 ≤ g.deallocationDelay.toInt)
    (hs : Reachable g R s) (hA : SlotsApart s) : ReferenceCounting g s := by
  have hInv := hs.inv hD
  have hH := hs.history hD
  have hlive {node : LSCNode} (h : node ∈ (ledger g s).refs) : node.lsClass ∈ live s.log :=
    (hInv.counted.of_target (hA.once _) (mem_targets_of_refs h)).1
  refine ⟨fun c hc hp ↦ ?_, fun b ↦ ⟨?_, hH.born b⟩, fun i hi node hpc ↦ ?_,
    fun i hi j node rest hpc ↦ ?_, fun i hi node rest hpc hn ↦ ?_, fun i hi c hpc ↦ ?_⟩
  · rw [← count_targets]
    exact hInv.counted.count_eq c hc (hA.once c) (not_mem_created hp)
  · cases hd : deallocations s.log b with
    | nil => exact Nat.zero_le _
    | cons x xs =>
      have ho := hH.length_deallocations_le hA b
      have ha := List.length_pos_of_ne_nil (hH.deallocated b (by rw [hd]; simp))
      rw [hd] at ho
      omega
  · obtain ⟨hl, -, ht⟩ := hInv.counted.of_dying (hA.once _) (mem_dying_of_deallocating hi hpc)
    have hz := count_targets g s node.lsClass
    rw [Multiset.count_eq_zero.mpr ht] at hz
    exact ⟨hl, by omega, by omega⟩
  · have hm := ((hs.local i).accessing j _ hpc).subset List.mem_cons_self
    exact hlive (mem_refs_of_heapClass hi (mem_bag_of_mem_visited hm))
  · exact hlive (mem_refs_of_heapClass hi
      (mem_bag.mpr ⟨_, List.mem_of_getElem? hn, List.mem_cons_self⟩))
  · obtain hpc | ⟨r, receivers, hpc⟩ := hpc
    · exact (hInv.counted.of_created (hA.once c) (mem_created_of_placing hi hpc)).1
    · exact (hInv.counted.of_target (hA.once c)
        (Multiset.mem_add.mpr (.inr (mem_pending_of_sharing hi hpc)))).1

/-- Nothing points to a slot that has been carved twice. -/
theorem Wrapped.nodesTo_eq_zero (h : Wrapped s) (c : Slot) : nodesTo migrating s c = 0 := by
  apply Finset.sum_eq_zero
  intro i hi
  rw [h.wheel i (Finset.mem_range.mp hi), h.pool i (Finset.mem_range.mp hi)]
  rfl

/-- Two receivers, one of them served. -/
theorem referenceCounting_of_reachable_shared :
    ∃ s, Reachable (sharingOptions 2 1 0 100) (schrage (sharingOptions 2 1 0 100)) s ∧
      (nodesTo (sharingOptions 2 1 0 100) s ⟨0, 0⟩ = 1 ∧
        insertionsTo (sharingOptions 2 1 0 100) s ⟨0, 0⟩ = 1) ∧
      ReferenceCounting (sharingOptions 2 1 0 100) s := by
  obtain ⟨s, hs, h⟩ := exists_of_endsIn (sharingOptions 2 1 0 100)
    (schrage (sharingOptions 2 1 0 100)) [0, 1, 0, 1, 0, 0, 0]
    (fun s ↦ nodesTo (sharingOptions 2 1 0 100) s ⟨0, 0⟩ = 1 ∧
      insertionsTo (sharingOptions 2 1 0 100) s ⟨0, 0⟩ = 1) (by decide +kernel) (by decide)
  exact ⟨s, hs, h, referenceCounting_of_reachable (by decide) hs (hs.slotsApart (by decide))⟩

/-- After `2 ^ 26` turns two collections of different threads have the same slot. One of them is
freed with a reference left, and the counter wraps. -/
theorem not_forall_referenceCounting :
    ¬ ∀ (g : GOptions) (s : Sys Int32), g.deallocationDelay = 0 → Reachable g (schrage g) s →
      ReferenceCounting g s := by
  intro h
  obtain ⟨s, hs, hw⟩ := exists_wrapped (schrage migrating)
  have hplaced : Placed migrating s ⟨0, 0⟩ := by
    intro i hi
    rw [hw.looping i hi]
    nofun
  have hcount := (h _ s rfl hs).counter ⟨0, 0⟩ hw.live hplaced
  have hnodes : nodesTo migrating s ⟨0, 0⟩ = 0 := hw.nodesTo_eq_zero _
  have hpending : insertionsTo migrating s ⟨0, 0⟩ = 0 :=
    Finset.sum_eq_zero fun i hi ↦ by
      rw [hw.looping i (Finset.mem_range.mp hi)]
      rfl
  rw [hw.counter, hnodes, hpending] at hcount
  exact absurd hcount (by decide)

/-! ### Leaks -/

/-- Control points outside an iteration of the main loop. -/
def Pc.outside : Pc → Bool
  | .arriving | .waiting _ | .looping => true
  | _ => false

/-- No thread is inside an iteration of its main loop. -/
def Outside (g : GOptions) (s : Sys σ) : Prop :=
  ∀ i < g.threads, (s.threads i).pc.outside = true

/-- Every collection that is not deallocated is pointed to by a node. -/
def NoLeak (g : GOptions) (s : Sys σ) : Prop := ∀ c ∈ live s.log, 0 < nodesTo g s c

instance (g : GOptions) (s : Sys σ) : Decidable (Outside g s) :=
  inferInstanceAs (Decidable (∀ i < g.threads, _))

instance (g : GOptions) (s : Sys σ) : Decidable (NoLeak g s) :=
  inferInstanceAs (Decidable (∀ c ∈ live s.log, _))

/-- A thread outside its main loop holds nothing. -/
theorem Pc.holds_of_outside {pc : Pc} (h : pc.outside = true) :
    pc.created = 0 ∧ pc.dying = 0 ∧ pc.pending = 0 ∧ pc.heldNodes = 0 := by
  cases pc with
  | arriving | waiting | looping => exact ⟨rfl, rfl, rfl, rfl⟩
  | _ => cases h

/-- Outside the main loop nothing is being created, shared or deallocated. -/
theorem Outside.idle (h : Outside g s) : (ledger g s).created = 0 ∧ (ledger g s).dying = 0 ∧
    (ledger g s).pending = 0 ∧ (ledger g s).heldNodes = 0 := by
  have hz (q : Pc → Multiset Slot) (hq : ∀ pc : Pc, pc.outside = true → q pc = 0) :
      ∑ i ∈ Finset.range g.threads, q (s.threads i).pc = 0 :=
    Finset.sum_eq_zero fun i hi ↦ hq _ (h i (Finset.mem_range.mp hi))
  refine ⟨hz Pc.created ?_, hz Pc.dying ?_, hz Pc.pending ?_, hz Pc.heldNodes ?_⟩
  · exact fun pc hpc ↦ (Pc.holds_of_outside hpc).1
  · exact fun pc hpc ↦ (Pc.holds_of_outside hpc).2.1
  · exact fun pc hpc ↦ (Pc.holds_of_outside hpc).2.2.1
  · exact fun pc hpc ↦ (Pc.holds_of_outside hpc).2.2.2

theorem abandoned_eq_zero_iff {log : List Event} :
    abandoned log = 0 ↔ ∀ i c b, .selected i c b [] ∉ log := by
  induction log with
  | nil => simp [abandoned]
  | cons e log ih =>
    cases e with
    | selected i c b receivers =>
      rw [abandoned_selected]
      cases receivers with
      | nil =>
        simp
        exact ⟨i, c, b, by simp⟩
      | cons r rs => simpa using ih
    | _ => simpa [abandoned] using ih

/-- The number of receivers of every shared collection. -/
theorem length_receivers (hs : Reachable g R s) (hn : 0 ≤ g.numThreads.toInt)
    (h0 : 0 < g.receivingThreadsRatio.toInt) {i : Nat} {c : Slot} {b : Block}
    {receivers : List Nat} (h : .selected i c b receivers ∈ s.log) :
    receivers.length = g.threads / (100 / g.receivingThreadsRatio.toNatClampNeg) := by
  induction hs with
  | start => simp [runAcdc] at h
  | step j hs hj hst ih =>
    cases step_move hst with
    | select c' receivers' rand rand' hpc hsh hr =>
      rcases List.mem_cons.mp h with h | h
      · cases h
        exact length_selection g R hr hn h0
      · exact ih h
    | _ => exact ih (by simpa using h)

/-- Outside the main loop the leaked collections are the abandoned ones. -/
theorem leaked_iff (hInv : Inv g s) (hA : SlotsApart s) (ho : Outside g s) (c : Slot) :
    c ∈ abandoned s.log ↔ c ∈ live s.log ∧ nodesTo g s c = 0 := by
  obtain ⟨hcr, hdy, hpe, -⟩ := ho.idle
  have hl := hInv.counted.live_count c (hA.once c)
  have hle := hInv.counted.live_count_le (hA.once c)
  have ht := count_targets g s c
  have hp := count_ledger_pending g s c
  rw [hcr, hdy] at hl
  rw [hpe] at hp
  simp only [← Multiset.count_pos, Multiset.count_zero, ht] at hl hp ⊢
  change (live s.log).count c = _ + (abandoned s.log).count c + _ at hl
  change (live s.log).count c ≤ 1 at hle
  split at hl <;> omega

/-- Outside the main loop and while no class slot is carved twice, no collection is leaked,
exactly if no collection was shared or there is a receiver for each. -/
theorem noLeak_iff (hD : 0 ≤ g.deallocationDelay.toInt) (hn : 1 ≤ g.numThreads.toInt)
    (h0 : 1 ≤ g.receivingThreadsRatio.toInt) (h1 : g.receivingThreadsRatio.toInt ≤ 100)
    (hs : Reachable g R s) (hA : SlotsApart s) (ho : Outside g s) :
    NoLeak g s ↔ 100 / g.receivingThreadsRatio.toNatClampNeg ≤ g.threads ∨
      ∀ i c b receivers, .selected i c b receivers ∉ s.log := by
  have hleak : NoLeak g s ↔ abandoned s.log = 0 := by
    rw [Multiset.eq_zero_iff_forall_notMem]
    refine forall_congr' fun c ↦ ?_
    rw [leaked_iff (hs.inv hD) hA ho c, not_and, Nat.pos_iff_ne_zero]
  have hlen {i : Nat} {c : Slot} {b : Block} {receivers : List Nat}
      (h : .selected i c b receivers ∈ s.log) :=
    length_receivers hs (by omega) (by omega) h
  have hd : 0 < 100 / g.receivingThreadsRatio.toNatClampNeg := by
    refine Nat.div_pos ?_ ?_ <;> simp only [Int32.toNatClampNeg] <;> omega
  rw [hleak, abandoned_eq_zero_iff]
  constructor
  · intro h
    rw [or_iff_not_imp_left, Nat.not_le]
    intro hlt i c b receivers hm
    have hl := hlen hm
    rw [Nat.div_eq_of_lt hlt] at hl
    exact h i c b (List.length_eq_zero_iff.mp hl ▸ hm)
  · rintro (hle | hnone) i c b hm
    · have hp := Nat.div_pos hle hd
      have hl := hlen hm
      rw [List.length_nil] at hl
      omega
    · exact hnone i c b [] hm

/-- A thread that shares with itself keeps its collection. -/
theorem noLeak_iff_one_receiver :
    ∃ s, Reachable (sharingOptions 1 2 0 100) (schrage (sharingOptions 1 2 0 100)) s ∧
      ((live s.log).card = 1 ∧ Outside (sharingOptions 1 2 0 100) s) ∧
      (NoLeak (sharingOptions 1 2 0 100) s ↔
        100 / (100 : Int32).toNatClampNeg ≤ (sharingOptions 1 2 0 100).threads ∨
          ∀ i c b receivers, .selected i c b receivers ∉ s.log) := by
  obtain ⟨s, hs, h⟩ := exists_of_endsIn (sharingOptions 1 2 0 100)
    (schrage (sharingOptions 1 2 0 100)) (List.replicate 8 0)
    (fun s ↦ (live s.log).card = 1 ∧ Outside (sharingOptions 1 2 0 100) s)
    (by decide +kernel) (by decide)
  exact ⟨s, hs, h, noLeak_iff (by decide) (by decide) (by decide) (by decide) hs
    (hs.slotsApart (by decide)) h.2⟩

/-- One thread that shares with half of the threads leaks its first collection. -/
theorem not_forall_noLeak :
    ¬ ∀ (g : GOptions) (s : Sys Int32), g.deallocationDelay = 0 → 1 ≤ g.numThreads.toInt →
      1 ≤ g.receivingThreadsRatio.toInt → g.receivingThreadsRatio.toInt ≤ 100 →
      Reachable g (schrage g) s → Outside g s → NoLeak g s := by
  intro h
  obtain ⟨s, hs, ho, hl⟩ := exists_of_endsIn (sharingOptions 1 1 0 50)
    (schrage (sharingOptions 1 1 0 50)) (List.replicate 7 0)
    (fun s ↦ Outside (sharingOptions 1 1 0 50) s ∧ ¬ NoLeak (sharingOptions 1 1 0 50) s)
    (by decide +kernel) (by decide)
  exact hl (h _ s rfl (by decide) (by decide) (by decide) hs ho)

end Acdc
