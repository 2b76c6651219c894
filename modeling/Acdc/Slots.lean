import Acdc.Unshared

/-!
# Slot pools

Slots migrate between the threads: a node is taken from the pool of the thread that inserts
it and recycled by the thread that removes it, a class by the thread that drops its last
reference. No slot is handed out twice and none is lost as long as no thread goes round its
class buffer. A thread that never shares runs out of class slots exactly when it holds as many
collections as its buffer has slots.
-/

namespace Acdc

open Inventory

variable {σ : Type}

/-- Control points between the removal of a node and its recycling. -/
def Pc.unlinked : Pc → Bool
  | .deallocating _ | .recycling _ => true
  | _ => false

/-- No thread is between the removal of a node and its recycling. -/
def BetweenOperations (g : GOptions) (s : Sys σ) : Prop :=
  ∀ i < g.threads, (s.threads i).pc.unlinked = false

/-- Places of a node slot: in a node cache or in a list of a local or shared heap-class. -/
def nodePlaces (g : GOptions) (s : Sys σ) (n : Slot) : Nat :=
  ∑ i ∈ Finset.range g.threads, ((s.threads i).mc.nodeCache.count n +
    (s.threads i).mc.heapClass.flatten.countP (·.slot = n) +
      (s.pools i).flatten.countP (·.slot = n))

/-- Places of a class slot: in a class cache or as the storage of a live collection. -/
def classPlaces (g : GOptions) (s : Sys σ) (c : Slot) : Nat :=
  ∑ i ∈ Finset.range g.threads, (s.threads i).mc.classCache.count c + (live s.log).count c

/-- A slot that its owner has taken from its buffer, of which `counter` slots are taken. -/
def TakenFrom (g : GOptions) (counter : Nat → Nat) (n : Slot) : Prop :=
  n.owner < g.threads ∧ n.index < counter n.owner

instance (g : GOptions) (counter : Nat → Nat) (n : Slot) : Decidable (TakenFrom g counter n) :=
  inferInstanceAs (Decidable (_ ∧ _))

/-- Collections that a thread has built and nobody has deallocated, by their numbers. -/
def undeallocated (i : Nat) (s : Sys σ) : Finset Nat :=
  (Finset.range (s.threads i).mc.collections).filter fun k ↦ deallocations s.log ⟨i, k⟩ = []

/-- Every slot taken from a buffer is in one place, and class buffers overflow when full. -/
structure SlotPools (g : GOptions) (s : Sys σ) : Prop where
  node : BetweenOperations g s → ∀ n, nodePlaces g s n =
    if TakenFrom g (fun i ↦ (s.threads i).mc.nodeBufferCounter) n then 1 else 0
  nodeSum : BetweenOperations g s →
    ∑ i ∈ Finset.range g.threads, (s.threads i).mc.nodeBufferCounter =
      ∑ i ∈ Finset.range g.threads, (s.threads i).mc.nodeCache.length +
        ∑ i ∈ Finset.range g.threads,
          ((s.threads i).mc.heapClass.flatten.length + (s.pools i).flatten.length)
  lsClass : ∀ c, classPlaces g s c =
    if TakenFrom g (fun i ↦ (s.threads i).mc.classBufferCounter) c then 1 else 0
  classSum : ∑ i ∈ Finset.range g.threads, (s.threads i).mc.classBufferCounter =
    ∑ i ∈ Finset.range g.threads, (s.threads i).mc.classCache.length + (live s.log).card
  overflow : ∀ i < g.threads, NeverShares i s →
    (getLSClass g i (s.threads i).mc = .error .classBufferOverflow ↔
      (undeallocated i s).card = g.classBufferSize.toNat)

variable {g : GOptions} {R : Generator σ} {i j : Nat} {s s' : Sys σ}

/-! ### The slots of the ledger -/

private theorem count_carved {slot : Nat → Nat → Slot} {counter : Nat → Nat} {n : Slot}
    (hmem : ∀ i, n ∈ carved (slot i) (counter i) ↔ n.owner = i ∧ n.index < counter i)
    (h : (∑ i ∈ Finset.range g.threads, carved (slot i) (counter i)).count n ≤ 1) :
    (∑ i ∈ Finset.range g.threads, carved (slot i) (counter i)).count n =
      if TakenFrom g counter n then 1 else 0 := by
  have hsum : n ∈ ∑ i ∈ Finset.range g.threads, carved (slot i) (counter i) ↔
      TakenFrom g counter n := by
    rw [Multiset.mem_sum]
    constructor
    · rintro ⟨i, hi, hn⟩
      obtain ⟨rfl, hk⟩ := (hmem i).mp hn
      exact ⟨Finset.mem_range.mp hi, hk⟩
    · rintro ⟨hi, hk⟩
      exact ⟨n.owner, Finset.mem_range.mpr hi, (hmem _).mpr ⟨rfl, hk⟩⟩
  split
  · next ht => exact Nat.le_antisymm h (Multiset.one_le_count_iff_mem.mpr (hsum.mpr ht))
  · next ht => exact Multiset.count_eq_zero.mpr (mt hsum.mp ht)

private theorem card_carved (slot : Nat → Slot) (k : Nat) : (carved slot k).card = k := by
  rw [carved, Multiset.card_map, Multiset.card_range]

private theorem card_sum_carved (n : Nat) (slot : Nat → Nat → Slot) (counter : Nat → Nat) :
    (∑ i ∈ Finset.range n, carved (slot i) (counter i)).card =
      ∑ i ∈ Finset.range n, counter i := by
  rw [Multiset.card_sum]
  exact Finset.sum_congr rfl fun i _ ↦ card_carved _ _

private theorem heldNodes_eq_zero (h : BetweenOperations g s) : (ledger g s).heldNodes = 0 := by
  change ∑ i ∈ Finset.range g.threads, (s.threads i).pc.heldNodes = 0
  apply Finset.sum_eq_zero
  intro i hi
  have hn := h i (Finset.mem_range.mp hi)
  cases hpc : (s.threads i).pc with
  | deallocating node => simp [hpc, Pc.unlinked] at hn
  | recycling node => simp [hpc, Pc.unlinked] at hn
  | _ => rfl

private theorem nodePlaces_eq (h : BetweenOperations g s) (n : Slot) : nodePlaces g s n =
    ((ledger g s).freeNodes + (ledger g s).heldNodes +
      (ledger g s).refs.map LSCNode.slot).count n := by
  rw [heldNodes_eq_zero h, add_zero, Multiset.count_add, count_map_eq, ledger, poolNodes,
    Multiset.countP_add, countP_sum, countP_sum, Multiset.count_sum']
  simp only [nodePlaces, bag, Multiset.coe_countP, Multiset.coe_count, Finset.sum_add_distrib,
    add_assoc]

private theorem card_refs (g : GOptions) (s : Sys σ) : (ledger g s).refs.card =
    ∑ i ∈ Finset.range g.threads,
      ((s.threads i).mc.heapClass.flatten.length + (s.pools i).flatten.length) := by
  rw [ledger, poolNodes, Multiset.card_add, Multiset.card_sum, Multiset.card_sum,
    ← Finset.sum_add_distrib]
  rfl

private theorem classPlaces_eq (g : GOptions) (s : Sys σ) (c : Slot) : classPlaces g s c =
    ((ledger g s).freeObjects + (ledger g s).live).count c := by
  rw [Multiset.count_add, ledger, Multiset.count_sum']
  simp only [classPlaces, Multiset.coe_count]

/-! ### The class buffer of a thread that never shares -/

/-- The number of class slots of one thread. -/
structure ClassSlots (g : GOptions) (i : Nat) (s : Sys σ) : Prop where
  le_size : (s.threads i).mc.classBufferCounter ≤ g.classBufferSize.toNat
  balance : (undeallocated i s).card + (s.threads i).mc.classCache.length =
    (s.threads i).mc.classBufferCounter

private theorem deallocator_of_start (hD : 0 ≤ g.deallocationDelay.toInt)
    (hi : i < g.threads) (hj : j < g.threads) (hs : Reachable g R s) (hu : NeverShares i s)
    {node : LSCNode} (hpc : (s.threads j).pc = .deallocating node)
    (hst : (s.classes node.lsClass).start.thread = i) : j = i := by
  have hInv := hs.inv hD
  have hH := hs.history hD
  have hP := hs.placement hD
  have hS := hs.ownSlots hD hi hu
  have hO := hs.owned hD hi hu
  have ho (c : Slot) (hc : c.owner = i) : CarvedOnce s c := hs.carvedOnce hD hi hu hc
  have ha : Allocated s.log node.lsClass := hH.of_named hInv
    (by simp [RefCount.State.named, mem_dying_of_deallocating hj hpc])
  have hlt := hH.serial_lt ha
  have hb : (s.classes node.lsClass).start = ⟨i, (s.classes node.lsClass).start.serial⟩ := by
    rw [← hst]
  rw [hst] at hlt
  by_cases hp : (s.classes node.lsClass).start.serial < (s.threads i).placed
  · obtain ⟨c, t, l, he⟩ := hO.placed _ hp
    rw [← hb] at he
    exact hO.deallocator hInv hH hP hi hj hS ho hpc he
  · -- the only collection that is not placed is the one about to be placed
    cases hpl : (s.threads i).pc with
    | placing c =>
      have hco := ho c (hS.owner_of_placing hpl)
      obtain ⟨hc, hcs⟩ := hP.placing i hi c hpl
      have hh : Held s i c := .placing hpl
      have hcc : node.lsClass = c := by
        apply hH.distinct ha (.of_live (hh.live hInv hi hco))
        rw [(hcs hco).1, hb]
        congr 1
        omega
      by_contra hne
      exact (hh.apart hInv hi hj hco (Ne.symm hne)).2.1 node hpc hcc
    | _ =>
      rw [Thread.placed_of_ne (by simp [hpl])] at hp
      exact absurd hlt hp

private theorem undeallocated_congr (hc : (s'.threads i).mc.collections =
    (s.threads i).mc.collections)
    (hd : ∀ b : Block, b.thread = i → deallocations s'.log b = deallocations s.log b) :
    undeallocated i s' = undeallocated i s := by
  ext k
  rw [undeallocated, undeallocated, hc, Finset.mem_filter, Finset.mem_filter, hd _ rfl]

private theorem card_undeallocated_create (hH : History s)
    (hc : (s'.threads i).mc.collections = (s.threads i).mc.collections + 1)
    (hd : ∀ b, deallocations s'.log b = deallocations s.log b) :
    (undeallocated i s').card = (undeallocated i s).card + 1 := by
  have hnew : deallocations s.log ⟨i, (s.threads i).mc.collections⟩ = [] := by
    by_contra hne
    obtain ⟨j, c, d, hm, hb⟩ := allocations_ne_nil.mp (hH.deallocated _ hne)
    have hs := hH.allocated j c d hm
    rw [hb] at hs
    exact Nat.lt_irrefl _ (hs.1 ▸ hs.2)
  have hset : undeallocated i s' =
      insert (s.threads i).mc.collections (undeallocated i s) := by
    simp only [undeallocated, hc, hd, Finset.range_add_one, Finset.filter_insert, hnew, if_true]
  rw [hset, Finset.card_insert_of_notMem (by simp [undeallocated])]

private theorem card_undeallocated_deallocate {c : Slot} {k : Nat} {th : Thread σ} (t : UInt32)
    (hb : (s.classes c).start = ⟨i, k⟩) (hk : k ∈ undeallocated i s)
    (hc : th.mc.collections = (s.threads i).mc.collections) :
    (undeallocated i ((s.put i th).emit (.deallocated i t c (s.classes c)))).card + 1 =
      (undeallocated i s).card := by
  have hset : undeallocated i ((s.put i th).emit (.deallocated i t c (s.classes c))) =
      (undeallocated i s).erase k := by
    ext r
    simp only [undeallocated, Sys.emit_threads, Sys.put_threads, Function.update_self, hc,
      Sys.emit_log, Sys.put_log, deallocations, hb, Block.mk.injEq, true_and, Finset.mem_erase,
      Finset.mem_filter]
    split
    · next he =>
      subst he
      simp
    · next he => simp [Ne.symm he]
  rw [hset, Finset.card_erase_add_one hk]

private theorem ClassSlots.deallocate (hC : ClassSlots g i s) {c : Slot} {k : Nat}
    {th : Thread σ} {t : UInt32} (hb : (s.classes c).start = ⟨i, k⟩) (hk : k ∈ undeallocated i s)
    (hc : th.mc.collections = (s.threads i).mc.collections)
    (hn : th.mc.classBufferCounter = (s.threads i).mc.classBufferCounter)
    (hcache : th.mc.classCache = c :: (s.threads i).mc.classCache) :
    ClassSlots g i ((s.put i th).emit (.deallocated i t c (s.classes c))) := by
  have hcard := card_undeallocated_deallocate t hb hk hc
  have hbal := hC.balance
  refine ⟨by simpa [hn] using hC.le_size, ?_⟩
  simp only [Sys.emit_threads, Sys.put_threads, Function.update_self, hn, hcache,
    List.length_cons]
  omega

private theorem Move.classSlots (hD : 0 ≤ g.deallocationDelay.toInt) (hi : i < g.threads)
    (hj : j < g.threads) (hs : Reachable g R s) (hu : NeverShares i s) (hC : ClassSlots g i s)
    (h : Move g R j s s') : ClassSlots g i s' := by
  have hInv := hs.inv hD
  have hH := hs.history hD
  obtain ⟨hle, hbal⟩ := hC
  by_cases hij : i = j
  · subst hij
    have h' := h
    cases h with
    | create p₀ p rand c cache k hpc hr hp he hl hz hb ht =>
      obtain ⟨-, -, hlen, hk⟩ := ht.counter
      have hcard := card_undeallocated_create (i := i) hH (by simp) fun b ↦
        (h'.deallocations_cases b).resolve_right (by simp [hpc])
      exact ⟨by simpa using hk hle, by simp [hcard]; omega⟩
    | deallocate node hpc hk =>
      have hk : Kept s i node.lsClass := .dying node hpc rfl
      have hco := hs.carvedOnce hD hi hu ((hs.ownSlots hD hi hu).owner_of_kept hk)
      have hl := (hInv.counted.of_dying hco (mem_dying_of_deallocating hi hpc)).1
      have hlt := hH.serial_lt (.of_live hl)
      obtain ⟨t, l, he⟩ := (hs.owned hD hi hu).inserted _ hk
      obtain ⟨hth, -⟩ := (hs.placement hD).inserted i _ _ t l he hco
      have hb : (s.classes node.lsClass).start =
          ⟨i, (s.classes node.lsClass).start.serial⟩ := by
        rw [← hth]
      have hkept := hH.kept _ hl hco
      rw [hth] at hlt
      rw [hb] at hkept
      have hmem : (s.classes node.lsClass).start.serial ∈ undeallocated i s :=
        Finset.mem_filter.mpr ⟨Finset.mem_range.mpr hlt, hkept⟩
      exact ClassSlots.deallocate ⟨hle, hbal⟩ hb hmem rfl rfl
        (if_pos (hInv.hasBuilder _))
    | _ =>
      have hu := undeallocated_congr (i := i) (s := s) (by simp) fun b _ ↦
        (h'.deallocations_cases b).resolve_right (by simp [*])
      refine ⟨by simpa using hle, ?_⟩
      rw [hu]
      simpa using hbal
  · have ht := h.threads_of_ne hij
    have hu : undeallocated i s' = undeallocated i s := by
      apply undeallocated_congr (by rw [ht])
      intro b hb
      apply (h.deallocations_cases b).resolve_right
      rintro ⟨node, hpc, rfl, -⟩
      exact hij (deallocator_of_start hD hi hj hs hu hpc hb).symm
    constructor
    · rw [ht]
      exact hle
    · rw [hu, ht]
      exact hbal

/-- The class slots of a thread that never shares in every reachable state. -/
theorem Reachable.classSlots (hD : 0 ≤ g.deallocationDelay.toInt) (hi : i < g.threads)
    (hs : Reachable g R s) (hu : NeverShares i s) : ClassSlots g i s := by
  induction hs with
  | start => exact ⟨Nat.zero_le _, rfl⟩
  | step j hs hj h ih =>
    have hm := step_move h
    have hu' := hu.of_move hm
    exact hm.classSlots hD hi hj hs hu' (ih hu')

/-- `get_LSClass` overflows exactly if its cache and its buffer are empty. -/
theorem getLSClass_overflow_iff (g : GOptions) (i : Nat) (mc : MContext σ) :
    getLSClass g i mc = .error .classBufferOverflow ↔
      mc.classCache = [] ∧ g.classBufferSize.toNat ≤ mc.classBufferCounter := by
  unfold getLSClass
  split
  · next c rest hc => simp [hc]
  · next hc =>
    split
    · next hle => simp [hc, hle]
    · next hle => simp [hle]

/-- While no thread goes round its class buffer the slot pools never hand out a slot twice and
never lose one, for any number of threads and in any interleaving. -/
theorem slotPools_of_reachable (hD : 0 ≤ g.deallocationDelay.toInt) (hs : Reachable g R s)
    (hA : SlotsApart s) : SlotPools g s := by
  have hc := (hs.inv hD).counted
  have hobjects : (ledger g s).objects = (ledger g s).freeObjects + (ledger g s).live := by
    ext c
    rw [Multiset.count_add, hc.objects_eq c (hA.once c)]
  refine ⟨fun hb n ↦ ?_, fun hb ↦ ?_, fun c ↦ ?_, ?_, fun i hi hu ↦ ?_⟩
  · rw [nodePlaces_eq hb, ← hc.nodes_eq]
    exact count_carved (fun _ ↦ mem_carved) (Multiset.nodup_iff_count_le_one.mp hc.nodup_nodes n)
  · have hcard := congrArg Multiset.card hc.nodes_eq
    rw [Multiset.card_add, Multiset.card_add, heldNodes_eq_zero hb, Multiset.card_map,
      card_refs, Multiset.card_zero, add_zero] at hcard
    rw [← card_sum_carved _ Slot.mk]
    refine hcard.trans ?_
    rw [ledger, Multiset.card_sum]
    simp only [Multiset.coe_card]
  · rw [classPlaces_eq, Multiset.count_add, ← hc.objects_eq c (hA.once c)]
    exact count_carved (fun i ↦ mem_carved_class (hA i)) (hc.objects_le c (hA.once c))
  · have hcard := congrArg Multiset.card hobjects
    rw [Multiset.card_add] at hcard
    rw [← card_sum_carved _ classSlot]
    refine hcard.trans ?_
    rw [ledger, Multiset.card_sum]
    simp only [Multiset.coe_card]
  · obtain ⟨hle, hbal⟩ := hs.classSlots hD hi hu
    rw [getLSClass_overflow_iff, ← List.length_eq_zero_iff]
    omega

/-- A buffer of one class slot is full after the first collection. -/
theorem slotPools_of_reachable_full :
    ∃ s, Reachable { smallOptions 1 2 0 with classBufferSize := 1 }
        (schrage { smallOptions 1 2 0 with classBufferSize := 1 }) s ∧
      SlotPools { smallOptions 1 2 0 with classBufferSize := 1 } s ∧
      getLSClass { smallOptions 1 2 0 with classBufferSize := 1 } 0 (s.threads 0).mc =
        .error .classBufferOverflow := by
  obtain ⟨s, hs, hc⟩ := exists_of_endsIn { smallOptions 1 2 0 with classBufferSize := 1 }
    (schrage { smallOptions 1 2 0 with classBufferSize := 1 }) (List.replicate 6 0)
    (fun s ↦ (undeallocated 0 s).card = 1) (by decide +kernel) (by decide)
  have hp := slotPools_of_reachable (by decide) hs (hs.slotsApart (by decide))
  exact ⟨s, hs, hp, (hp.overflow 0 (by decide) (hs.neverShares rfl 0)).mpr hc⟩

/-- After `2 ^ 26` turns a slot is in the cache of its owner and the storage of a collection. -/
theorem not_forall_slotPools :
    ¬ ∀ (g : GOptions) (s : Sys Int32), g.deallocationDelay = 0 → Reachable g (schrage g) s →
      BetweenOperations g s → SlotPools g s := by
  intro h
  obtain ⟨s, hs, hw⟩ := exists_wrapped (schrage migrating)
  have hbetween : BetweenOperations migrating s := by
    intro i hi
    rw [hw.looping i hi]
    rfl
  have hplaces := (h _ s rfl hs hbetween).lsClass ⟨0, 0⟩
  have hlive := Multiset.one_le_count_iff_mem.mpr hw.live
  have hcached := List.one_le_count_iff.mpr hw.cached
  have hle := Finset.single_le_sum (f := fun i ↦ (s.threads i).mc.classCache.count ⟨0, 0⟩)
    (fun _ _ ↦ Nat.zero_le _) (Finset.mem_range.mpr (show 0 < migrating.threads by decide))
  rw [classPlaces] at hplaces
  split at hplaces <;> omega

end Acdc
