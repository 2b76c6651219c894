import Acdc.References
import Mathlib.Algebra.Order.BigOperators.Group.Finset
import Mathlib.Data.UInt

/-!
# Memory accounting

Bytes and objects are added by the thread that allocates a collection and subtracted by the
thread that drops its last reference, from the fields of its descriptor. Over all threads
the difference is what the live collections hold.
-/

namespace Acdc

variable {σ : Type}

/-- Bytes of a collection, before they are reduced modulo `2 ^ 64`. -/
def LSClass.bytes (d : LSClass) : Nat := d.objectSize.toNat * d.numObjects.toNat

/-- Objects of a collection. -/
def LSClass.objects (d : LSClass) : Nat := d.numObjects.toNat

/-- Total of `f` over the collections that thread `i` has allocated. -/
def allocatedBy (f : LSClass → Nat) (i : Nat) : List Event → Nat
  | [] => 0
  | .allocated j _ d :: log => (if j = i then f d else 0) + allocatedBy f i log
  | _ :: log => allocatedBy f i log

/-- Total of `f` over the collections that thread `i` has deallocated. -/
def deallocatedBy (f : LSClass → Nat) (i : Nat) : List Event → Nat
  | [] => 0
  | .deallocated j _ _ d :: log => (if j = i then f d else 0) + deallocatedBy f i log
  | _ :: log => deallocatedBy f i log

theorem allocatedBy_append (f : LSClass → Nat) (i : Nat) (new log : List Event) :
    allocatedBy f i (new ++ log) = allocatedBy f i new + allocatedBy f i log := by
  induction new with
  | nil => exact (Nat.zero_add _).symm
  | cons e new ih => cases e <;> simp [allocatedBy, ih, Nat.add_assoc]

theorem deallocatedBy_append (f : LSClass → Nat) (i : Nat) (new log : List Event) :
    deallocatedBy f i (new ++ log) = deallocatedBy f i new + deallocatedBy f i log := by
  induction new with
  | nil => exact (Nat.zero_add _).symm
  | cons e new ih => cases e <;> simp [deallocatedBy, ih, Nat.add_assoc]

@[simp] theorem allocatedBy_zero (i : Nat) (log : List Event) :
    allocatedBy (fun _ ↦ 0) i log = 0 := by
  induction log with
  | nil => rfl
  | cons e log ih => cases e <;> simp [allocatedBy, ih]

@[simp] theorem deallocatedBy_zero (i : Nat) (log : List Event) :
    deallocatedBy (fun _ ↦ 0) i log = 0 := by
  induction log with
  | nil => rfl
  | cons e log ih => cases e <;> simp [deallocatedBy, ih]

/-- A total of allocations is monotone in what is added. -/
theorem allocatedBy_le {f f' : LSClass → Nat} {i : Nat} {log : List Event}
    (h : ∀ c d, .allocated i c d ∈ log → f d ≤ f' d) :
    allocatedBy f i log ≤ allocatedBy f' i log := by
  induction log with
  | nil => exact Nat.le_refl 0
  | cons e log ih =>
    have ih := ih fun c d hm ↦ h c d (List.mem_cons_of_mem _ hm)
    cases e with
    | allocated j c d =>
      by_cases hj : j = i
      · subst hj
        have hd := h c d List.mem_cons_self
        simp only [allocatedBy, if_pos]
        omega
      · simpa [allocatedBy, hj] using ih
    | _ => exact ih

/-- A total of deallocations is monotone in what is added. -/
theorem deallocatedBy_le {f f' : LSClass → Nat} {i : Nat} {log : List Event}
    (h : ∀ t c d, .deallocated i t c d ∈ log → f d ≤ f' d) :
    deallocatedBy f i log ≤ deallocatedBy f' i log := by
  induction log with
  | nil => exact Nat.le_refl 0
  | cons e log ih =>
    have ih := ih fun t c d hm ↦ h t c d (List.mem_cons_of_mem _ hm)
    cases e with
    | deallocated j t c d =>
      by_cases hj : j = i
      · subst hj
        have hd := h t c d List.mem_cons_self
        simp only [deallocatedBy, if_pos]
        omega
      · simpa [deallocatedBy, hj] using ih
    | _ => exact ih

/-- Total of `f` over the live collections. -/
def liveTotal (f : LSClass → Nat) (s : Sys σ) : Nat :=
  ((live s.log).map fun c ↦ f (s.classes c)).sum

/-- The counters of a thread are the totals of its events modulo `2 ^ 64`. -/
structure CountersOf (log : List Event) (i : Nat) (m : MStat) : Prop where
  bytesAllocated : m.bytesAllocated = UInt64.ofNat (allocatedBy LSClass.bytes i log)
  bytesDeallocated : m.bytesDeallocated = UInt64.ofNat (deallocatedBy LSClass.bytes i log)
  objectsAllocated : m.objectsAllocated = UInt64.ofNat (allocatedBy LSClass.objects i log)
  objectsDeallocated :
    m.objectsDeallocated = UInt64.ofNat (deallocatedBy LSClass.objects i log)

variable {g : GOptions} {R : Generator σ} {i : Nat} {s s' : Sys σ}

theorem Quiet.allocatedBy (h : Quiet s s') (f : LSClass → Nat) (i : Nat) :
    allocatedBy f i s'.log = allocatedBy f i s.log :=
  h.of_log (Acdc.allocatedBy f i) fun e _ he ↦ by
    cases e <;> simp_all [Event.quiet, Acdc.allocatedBy]

theorem Quiet.deallocatedBy (h : Quiet s s') (f : LSClass → Nat) (i : Nat) :
    deallocatedBy f i s'.log = deallocatedBy f i s.log :=
  h.of_log (Acdc.deallocatedBy f i) fun e _ he ↦ by
    cases e <;> simp_all [Event.quiet, Acdc.deallocatedBy]

private theorem CountersOf.of_quiet (h : CountersOf s.log i (s.threads i).mc.stat)
    (hq : Quiet s s') : CountersOf s'.log i (s'.threads i).mc.stat := by
  obtain ⟨h1, h2, h3, h4⟩ := h
  constructor <;> simpa only [hq.stat, hq.allocatedBy, hq.deallocatedBy]

/-- The counters of every thread are the totals of its events. -/
theorem Reachable.countersOf (hs : Reachable g R s) (i : Nat) :
    CountersOf s.log i (s.threads i).mc.stat := by
  induction hs with
  | start => constructor <;> rfl
  | step j hs hj hst ih =>
    have hm := step_move hst
    have hm' := hm
    obtain ⟨h1, h2, h3, h4⟩ := id ih
    cases hm with
    | create p₀ p rand c cache k hpc =>
      by_cases hij : i = j
      · subst hij
        constructor <;> simp [h1, h2, h3, h4, allocatedBy, deallocatedBy, MStat.count,
          LSClass.bytes, LSClass.objects, newDescriptor, UInt64.ofNat_add, add_comm]
      · constructor <;> simp [h1, h2, h3, h4, allocatedBy, deallocatedBy, Ne.symm hij,
          Function.update_of_ne hij]
    | deallocate node hpc hk =>
      by_cases hij : i = j
      · subst hij
        constructor <;> simp [h1, h2, h3, h4, allocatedBy, deallocatedBy, MStat.uncount,
          LSClass.bytes, LSClass.objects, UInt64.ofNat_add, add_comm]
      · constructor <;> simp [h1, h2, h3, h4, allocatedBy, deallocatedBy, Ne.symm hij,
          Function.update_of_ne hij]
    | _ => exact ih.of_quiet (hm'.quiet (by simp [*]) (by simp [*]))

section Balance

variable {f : LSClass → Nat} (hf : ∀ d k, f { d with referenceCounter := k } = f d)

private theorem liveTotal_congr (hl : live s'.log = live s.log)
    (hc : ∀ c ∈ live s.log, f (s'.classes c) = f (s.classes c)) :
    liveTotal f s' = liveTotal f s := by
  rw [liveTotal, liveTotal, hl, Multiset.map_congr rfl hc]

private theorem sum_event {n j x : Nat} (hj : j < n) (t : Nat → Nat) :
    ∑ i ∈ Finset.range n, ((if j = i then x else 0) + t i) =
      x + ∑ i ∈ Finset.range n, t i := by
  rw [Finset.sum_add_distrib, Finset.sum_ite_eq, if_pos (Finset.mem_range.mpr hj)]

include hf

/-- Over all threads, what was allocated is what was deallocated and what is live. -/
theorem Reachable.balance (hw : g.HasWheel) (hs : Reachable g R s) (hA : SlotsApart s) :
    ∑ i ∈ Finset.range g.threads, allocatedBy f i s.log =
      ∑ i ∈ Finset.range g.threads, deallocatedBy f i s.log + liveTotal f s := by
  induction hs with
  | start => simp [runAcdc, allocatedBy, deallocatedBy, liveTotal, live]
  | @step s s' j hs hj hst ih =>
    have hm := step_move hst
    have hm' := hm
    have hInv := hs.inv_of_hasWheel hw
    have hInv' := hm.inv hw hj hInv
    have ih := ih (hA.of_move hm)
    cases hm with
    | create p₀ p rand c cache k hpc =>
      have hc : c ∉ live s.log := hInv'.notMem_live (hA.once c) rfl
      have hcongr : ((live s.log).map fun c' ↦ f (Function.update s.classes c
          (newDescriptor g j (s.threads j).mc.collections p) c')).sum = liveTotal f s := by
        refine congrArg Multiset.sum (Multiset.map_congr rfl fun c' hc' ↦ ?_)
        rw [Function.update_of_ne (by rintro rfl; exact hc hc')]
      simp only [liveTotal, Sys.emit_log, Sys.put_log, Sys.putClass_log, Sys.emit_classes,
        Sys.put_classes, Sys.putClass_classes, allocatedBy, deallocatedBy, live,
        Multiset.map_cons, Multiset.sum_cons, Function.update_self, sum_event hj, hcongr, ih]
      omega
    | deallocate node hpc hk =>
      have hl : node.lsClass ∈ live s.log :=
        (hInv.counted.of_dying (hA.of_move hm' |>.once _) (mem_dying_of_deallocating hj hpc)).1
      have he := Multiset.sum_map_erase (f := fun c ↦ f (s.classes c)) hl
      simp only [liveTotal, Sys.emit_log, Sys.put_log, Sys.emit_classes, Sys.put_classes,
        allocatedBy, deallocatedBy, live, sum_event hj, ih, ← he]
      omega
    | _ =>
      have hq := hm'.quiet (by simp [*]) (by simp [*])
      have ht := liveTotal_congr (f := f) hq.live fun c _ ↦ by
        have hi := congrArg f (hq.initial c)
        simpa only [LSClass.initial, hf] using hi
      simp only [hq.allocatedBy, hq.deallocatedBy]
      rw [ht, ih]

end Balance

/-! ### The counters of all threads -/

/-- The lifetime-size-classes that nodes of local and shared heap-classes point to. -/
def pointed (g : GOptions) (s : Sys σ) : Finset Slot :=
  (Finset.range g.threads).biUnion fun i ↦
    (((s.threads i).mc.heapClass.flatten ++ (s.pools i).flatten).map LSCNode.lsClass).toFinset

theorem mem_pointed {c : Slot} : c ∈ pointed g s ↔ 0 < nodesTo g s c := by
  simp only [pointed, nodesTo, Finset.mem_biUnion, Finset.mem_range, List.mem_toFinset,
    List.mem_map, Finset.sum_pos_iff, ← List.countP_append, List.countP_pos_iff,
    decide_eq_true_eq]

/-- The ratio selects at least one receiver, whatever is drawn. -/
def SelectsReceiver (g : GOptions) (R : Generator σ) : Prop :=
  ∀ rand receivers rand',
    getRandomThreadSelection g R rand = .ok (receivers, rand') → receivers ≠ []

/-- A ratio selects a receiver when its quotient is at most the number of threads. -/
theorem selectsReceiver_of_le (R : Generator σ) (hn : 0 ≤ g.numThreads.toInt)
    (h0 : 1 ≤ g.receivingThreadsRatio.toInt) (h1 : g.receivingThreadsRatio.toInt ≤ 100)
    (hr : 100 / g.receivingThreadsRatio.toNatClampNeg ≤ g.threads) : SelectsReceiver g R := by
  intro rand receivers rand' h
  have hd : 0 < 100 / g.receivingThreadsRatio.toNatClampNeg := by
    refine Nat.div_pos ?_ ?_ <;> simp only [Int32.toNatClampNeg] <;> omega
  rw [← List.length_pos_iff_ne_nil, length_selection g R h hn (by omega)]
  exact Nat.div_pos hr hd

private theorem not_selected_nil (hr : SelectsReceiver g R) (hs : Reachable g R s) (i : Nat)
    (c : Slot) (b : Block) : .selected i c b [] ∉ s.log := by
  induction hs with
  | start => simp [runAcdc]
  | step j hs hj hst ih =>
    cases step_move hst with
    | select c' receivers rand rand' hpc hsh hsel =>
      simpa [(hr _ _ _ hsel).symm] using ih
    | _ => simpa using ih

private theorem live_eq_pointed (hInv : Inv g s) (hA : SlotsApart s) (ho : Outside g s)
    (ha : abandoned s.log = 0) : live s.log = (pointed g s).val := by
  have hn : (live s.log).Nodup :=
    Multiset.nodup_iff_count_le_one.mpr fun c ↦ hInv.counted.live_count_le (hA.once c)
  refine (Multiset.Nodup.ext hn (pointed g s).nodup).mpr fun c ↦ ?_
  have hl := leaked_iff hInv hA ho c
  rw [ha] at hl
  rw [Finset.mem_val, mem_pointed]
  constructor
  · intro hc
    by_contra hz
    exact Multiset.notMem_zero c (hl.mpr ⟨hc, by omega⟩)
  · intro hp
    have ht := count_targets g s c
    exact (hInv.counted.of_target (hA.once c) (Multiset.count_pos.mp (by omega))).1

private theorem liveTotal_eq (hInv : Inv g s) (hA : SlotsApart s) (ho : Outside g s)
    (ha : abandoned s.log = 0) (f : LSClass → Nat) :
    liveTotal f s = ∑ c ∈ pointed g s, f (s.classes c) := by
  rw [liveTotal, live_eq_pointed hInv hA ho ha]
  rfl

-- Reduction modulo `2 ^ 64`.
private def reduce : Nat →+ UInt64 where
  toFun := UInt64.ofNat
  map_zero' := rfl
  map_add' := UInt64.ofNat_add

/-- The totals of two counters over all threads differ, modulo `2 ^ 64`, by what the
collections pointed to hold. -/
def Balanced (g : GOptions) (s : Sys σ) (allocated deallocated : MStat → UInt64)
    (f : LSClass → UInt64) : Prop :=
  ∑ i ∈ Finset.range g.threads, allocated (s.threads i).mc.stat -
    ∑ i ∈ Finset.range g.threads, deallocated (s.threads i).mc.stat =
      ∑ c ∈ pointed g s, f (s.classes c)

private theorem balanced_of_totals {allocated deallocated : MStat → UInt64} {f : LSClass → Nat}
    (h : ∑ i ∈ Finset.range g.threads, allocatedBy f i s.log =
      ∑ i ∈ Finset.range g.threads, deallocatedBy f i s.log + ∑ c ∈ pointed g s, f (s.classes c))
    (ha : ∀ i, allocated (s.threads i).mc.stat = UInt64.ofNat (allocatedBy f i s.log))
    (hd : ∀ i, deallocated (s.threads i).mc.stat = UInt64.ofNat (deallocatedBy f i s.log)) :
    Balanced g s allocated deallocated fun d ↦ UInt64.ofNat (f d) := by
  have hr := congrArg reduce h
  rw [map_add, map_sum, map_sum, map_sum] at hr
  rw [Balanced, sub_eq_iff_eq_add']
  simp only [ha, hd]
  exact hr

/-- Memory accounting is conserved across threads: outside the main loop the counters
differ by what the collections pointed to hold, and no total is negative, while a single
thread may deallocate more than it allocated. -/
theorem accounting_conserved {σ : Type} {g : GOptions} {R : Generator σ} {s : Sys σ}
    (hD : 0 ≤ g.deallocationDelay.toInt) (hr : SelectsReceiver g R) (hs : Reachable g R s)
    (hA : SlotsApart s) (ho : Outside g s) :
    (Balanced g s MStat.bytesAllocated MStat.bytesDeallocated
        (fun d ↦ d.objectSize * d.numObjects) ∧
      ∑ i ∈ Finset.range g.threads, deallocatedBy LSClass.bytes i s.log ≤
        ∑ i ∈ Finset.range g.threads, allocatedBy LSClass.bytes i s.log) ∧
    (Balanced g s MStat.objectsAllocated MStat.objectsDeallocated LSClass.numObjects ∧
      ∑ i ∈ Finset.range g.threads, deallocatedBy LSClass.objects i s.log ≤
        ∑ i ∈ Finset.range g.threads, allocatedBy LSClass.objects i s.log) ∧
    ∃ (g : GOptions) (s : Sys Int32) (i : Nat), g.deallocationDelay = 0 ∧
      SelectsReceiver g (schrage g) ∧ Reachable g (schrage g) s ∧ Outside g s ∧
      allocatedBy LSClass.bytes i s.log < deallocatedBy LSClass.bytes i s.log ∧
      allocatedBy LSClass.objects i s.log < deallocatedBy LSClass.objects i s.log := by
  rw [← and_assoc]
  constructor
  · have ha := abandoned_eq_zero_iff.mpr (not_selected_nil hr hs)
    have ht (f : LSClass → Nat) (hf : ∀ d k, f { d with referenceCounter := k } = f d) :=
      liveTotal_eq (hs.inv hD) hA ho ha f ▸ hs.balance hf (GOptions.hasWheel hD) hA
    have hb := ht LSClass.bytes fun _ _ ↦ rfl
    have hn := ht LSClass.objects fun _ _ ↦ rfl
    have hbytes := balanced_of_totals hb (fun i ↦ (hs.countersOf i).bytesAllocated)
      fun i ↦ (hs.countersOf i).bytesDeallocated
    have hobjects := balanced_of_totals hn (fun i ↦ (hs.countersOf i).objectsAllocated)
      fun i ↦ (hs.countersOf i).objectsDeallocated
    simp only [LSClass.bytes, UInt64.ofNat_mul, UInt64.ofNat_toNat] at hbytes
    simp only [LSClass.objects, UInt64.ofNat_toNat] at hobjects
    exact ⟨⟨hbytes, by omega⟩, hobjects, by omega⟩
  · obtain ⟨s, hs, h⟩ := exists_of_endsIn { sharingOptions 2 1 0 50 with seed := 4 }
      (schrage { sharingOptions 2 1 0 50 with seed := 4 })
      ([0, 1, 0, 1] ++ List.replicate 12 0 ++ List.replicate 12 1)
      (fun s ↦ Outside (sharingOptions 2 1 0 50) s ∧
        allocatedBy LSClass.bytes 1 s.log < deallocatedBy LSClass.bytes 1 s.log ∧
        allocatedBy LSClass.objects 1 s.log < deallocatedBy LSClass.objects 1 s.log)
      (by decide +kernel) (by decide)
    exact ⟨_, s, 1, rfl, selectsReceiver_of_le _ (by decide) (by decide) (by decide)
      (by decide), hs, h⟩

/-- Two threads share two collections and hold both. -/
theorem accounting_conserved_two_threads :
    ∃ s, Reachable (sharingOptions 2 2 0 100) (schrage (sharingOptions 2 2 0 100)) s ∧
      (pointed (sharingOptions 2 2 0 100) s).card = 2 ∧
      Balanced (sharingOptions 2 2 0 100) s MStat.bytesAllocated MStat.bytesDeallocated
        (fun d ↦ d.objectSize * d.numObjects) := by
  obtain ⟨s, hs, hc, ho⟩ := exists_of_endsIn (sharingOptions 2 2 0 100)
    (schrage (sharingOptions 2 2 0 100))
    ([0, 1, 0, 1] ++ List.replicate 7 0 ++ List.replicate 7 1)
    (fun s ↦ (pointed (sharingOptions 2 2 0 100) s).card = 2 ∧
      Outside (sharingOptions 2 2 0 100) s) (by decide +kernel) (by decide)
  have hr : SelectsReceiver (sharingOptions 2 2 0 100) (schrage (sharingOptions 2 2 0 100)) :=
    selectsReceiver_of_le _ (by decide) (by decide) (by decide) (by decide)
  have hA : SlotsApart s := hs.slotsApart (by decide)
  exact ⟨s, hs, hc, (accounting_conserved (by decide) hr hs hA ho).1.1⟩

/-- After `2 ^ 26` turns 16 bytes stay counted of a collection that nothing points to. -/
theorem not_forall_balanced :
    ¬ ∀ (g : GOptions) (s : Sys Int32), g.deallocationDelay = 0 → SelectsReceiver g (schrage g) →
      Reachable g (schrage g) s → Outside g s →
        Balanced g s MStat.bytesAllocated MStat.bytesDeallocated
          (fun d ↦ d.objectSize * d.numObjects) := by
  intro h
  obtain ⟨s, hs, hw⟩ := exists_wrapped (schrage migrating)
  have hr : SelectsReceiver migrating (schrage migrating) :=
    selectsReceiver_of_le _ (by decide) (by decide) (by decide) (by decide)
  have ho : Outside migrating s := by
    intro i hi
    rw [hw.looping i hi]
    rfl
  have hb := h _ s rfl hr hs ho
  have hpointed : pointed migrating s = ∅ := by
    ext c
    simp [mem_pointed, hw.nodesTo_eq_zero]
  have hthreads : migrating.threads = 2 := by decide
  rw [Balanced, hpointed, hthreads, Finset.sum_empty, sub_eq_zero, Finset.sum_range_succ,
    Finset.sum_range_one, Finset.sum_range_succ, Finset.sum_range_one, hw.balance] at hb
  exact absurd (left_eq_add.mp hb.symm) (by decide)

end Acdc
