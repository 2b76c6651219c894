import Acdc.References
import Mathlib.Algebra.Order.BigOperators.Group.Finset

/-!
# Placement

Which collections one thread alone refers to, and what the log says of the collections that
the unshared path has inserted. No other thread touches the descriptor of a collection that
a thread alone refers to, as long as the slot of the descriptor is not carved again.
-/

namespace Acdc

open Inventory

variable {σ : Type}

/-- Number of collections that a thread has built and placed. -/
def Thread.placed (th : Thread σ) : Nat :=
  match th.pc with
  | .placing _ => th.mc.collections - 1
  | _ => th.mc.collections

/-- Only the thread `i` refers to the collection `c`. -/
inductive Held (s : Sys σ) (i : Nat) (c : Slot) : Prop where
  | placing (h : (s.threads i).pc = .placing c)
  | dying (node : LSCNode) (h : (s.threads i).pc = .deallocating node) (hc : node.lsClass = c)
  | counted (node : LSCNode) (h : node ∈ bag (s.threads i).mc.heapClass)
      (hc : node.lsClass = c) (h1 : (s.classes c).referenceCounter = 1)

variable {g : GOptions} {R : Generator σ} {i j : Nat} {s s' : Sys σ}

/-! ### What a move changes -/

/-- The log only grows. -/
theorem Move.log (h : Move g R i s s') : s'.log = s.log ∨ ∃ e, s'.log = e :: s.log := by
  cases h <;> simp

theorem Move.mem_log (h : Move g R i s s') {e : Event} (he : e ∈ s.log) : e ∈ s'.log := by
  obtain hl | ⟨e', hl⟩ := h.log
  · rw [hl]
    exact he
  · rw [hl]
    exact List.mem_cons_of_mem e' he

/-- A new insertion is that of the collection being placed. -/
theorem Move.inserted_cases (h : Move g R i s s') {c : Slot} {b : Block} {t l : UInt32}
    (he : .inserted j c b t l ∈ s'.log) : .inserted j c b t l ∈ s.log ∨
      j = i ∧ (s.threads i).pc = .placing c ∧ b = (s.classes c).start ∧
        t = (s.threads i).mc.time ∧ l = (s.threads i).liveness := by
  cases h with
  | insert c' node cache k rand hpc =>
    rcases List.mem_cons.mp he with he | he
    · cases he
      exact .inr ⟨rfl, hpc, rfl, rfl, rfl⟩
    · exact .inl he
  | _ => exact .inl (by simpa using he)

/-- A new deallocation is that of the collection whose last reference was dropped. -/
theorem Move.deallocations_cases (h : Move g R i s s') (b : Block) :
    deallocations s'.log b = deallocations s.log b ∨
      ∃ node, (s.threads i).pc = .deallocating node ∧ (s.classes node.lsClass).start = b ∧
        deallocations s'.log b = (i, (s.threads i).mc.time) :: deallocations s.log b := by
  cases h with
  | deallocate node hpc hk =>
    by_cases hb : (s.classes node.lsClass).start = b
    · exact .inr ⟨node, hpc, hb, by simp [deallocations, hb]⟩
    · exact .inl (by simp [deallocations, hb])
  | _ => exact .inl (by simp [deallocations])

/-- Deallocations are not undone. -/
theorem Move.deallocations_ne_nil (h : Move g R i s s') {b : Block}
    (hb : deallocations s.log b ≠ []) : deallocations s'.log b ≠ [] := by
  obtain he | ⟨node, -, -, he⟩ := h.deallocations_cases b
  · rw [he]
    exact hb
  · rw [he]
    exact List.cons_ne_nil _ _

/-- The descriptors that a move writes: of a free slot, of the collection being placed, or of
the collection that loses a reference. -/
theorem Move.classes_cases (hD : 0 ≤ g.deallocationDelay.toInt) (hi : i < g.threads)
    (hInv : Inv g s) (h : Move g R i s s') {c : Slot} (ho : CarvedOnce s' c) :
    s'.classes c = s.classes c ∨ c ∉ live s.log ∨ (s.threads i).pc = .placing c ∨
      ∃ node ∈ bag (s.threads i).mc.heapClass, node.lsClass = c := by
  have hInv' := h.inv (GOptions.hasWheel hD) hi hInv
  cases h with
  | create p₀ p rand c' cache k hpc =>
    by_cases hc : c = c'
    · subst hc
      exact .inr (.inl (hInv'.notMem_live ho rfl))
    · exact .inl (by simp [Function.update_of_ne hc])
  | insert c' node cache k rand hpc | select c' receivers rand rand' hpc =>
    by_cases hc : c = c'
    · subst hc
      exact .inr (.inr (.inl hpc))
    · exact .inl (by simp [Function.update_of_ne hc])
  | unreference node rest hpc hn =>
    by_cases hc : c = node.lsClass
    · subst hc
      exact .inr (.inr (.inr ⟨node,
        mem_bag.mpr ⟨_, List.mem_of_getElem? hn, List.mem_cons_self⟩, rfl⟩))
    · exact .inl (by simp [Function.update_of_ne hc])
  | _ => exact .inl (by simp)

/-! ### Collections of one thread -/

section Held

variable (hInv : Inv g s) (hi : i < g.threads)
include hInv hi

/-- A collection that a thread refers to is live. -/
theorem Held.live {c : Slot} (h : Held s i c) (ho : CarvedOnce s c) : c ∈ live s.log := by
  cases h with
  | placing h => exact (hInv.counted.of_created ho (mem_created_of_placing hi h)).1
  | dying node h hc =>
    subst hc
    exact (hInv.counted.of_dying ho (mem_dying_of_deallocating hi h)).1
  | counted node h hc =>
    subst hc
    exact (hInv.counted.of_target ho (mem_targets_of_refs (mem_refs_of_heapClass hi h))).1

end Held

section Others

variable {n : Nat} (hi : i < n) (hj : j < n) (hij : i ≠ j)
include hi hj hij

private theorem add_le_sum (q : Nat → Nat) : q i + q j ≤ ∑ k ∈ Finset.range n, q k := by
  rw [← Finset.sum_pair (f := q) hij]
  apply Finset.sum_le_sum_of_subset
  intro k hk
  rcases Finset.mem_insert.mp hk with rfl | hk
  · exact Finset.mem_range.mpr hi
  · rw [Finset.mem_singleton.mp hk]
    exact Finset.mem_range.mpr hj

private theorem count_add_le (q : Nat → Multiset Slot) (c : Slot) :
    (q i).count c + (q j).count c ≤ (∑ k ∈ Finset.range n, q k).count c := by
  rw [Multiset.count_sum']
  exact add_le_sum hi hj hij fun k ↦ (q k).count c

end Others

/-- Nodes of the local heap-class of a thread that point to `c`. -/
def localNodes (s : Sys σ) (i : Nat) (c : Slot) : Nat :=
  (s.threads i).mc.heapClass.flatten.countP (·.lsClass = c)

theorem localNodes_pos {c : Slot} :
    0 < localNodes s i c ↔ ∃ node ∈ bag (s.threads i).mc.heapClass, node.lsClass = c := by
  rw [localNodes, List.countP_pos_iff]
  simp only [bag, Multiset.mem_coe, decide_eq_true_eq]

private theorem localNodes_le (hi : i < g.threads) (c : Slot) :
    localNodes s i c ≤ nodesTo g s c := by
  refine Nat.le_trans (Nat.le_add_right _ ((s.pools i).flatten.countP (·.lsClass = c))) ?_
  exact Finset.single_le_sum (f := fun k ↦ localNodes s k c +
    (s.pools k).flatten.countP (·.lsClass = c)) (fun _ _ ↦ Nat.zero_le _) (Finset.mem_range.mpr hi)

section Apart

variable (hInv : Inv g s) (hi : i < g.threads) (hj : j < g.threads)
include hInv hi

/-- A collection that a node leads to is neither about to be placed nor deallocated. -/
theorem of_node {node : LSCNode} (ho : CarvedOnce s node.lsClass)
    (h : node ∈ bag (s.threads i).mc.heapClass) :
    node.lsClass ∉ (ledger g s).created ∧ node.lsClass ∉ (ledger g s).dying := by
  obtain ⟨-, hc, hd, -⟩ :=
    hInv.counted.of_target ho (mem_targets_of_refs (mem_refs_of_heapClass hi h))
  exact ⟨hc, hd⟩

/-- One node leads to a collection whose counter is one. -/
theorem localNodes_eq_one {node : LSCNode} (ho : CarvedOnce s node.lsClass)
    (h : node ∈ bag (s.threads i).mc.heapClass)
    (h1 : (s.classes node.lsClass).referenceCounter = 1) :
    nodesTo g s node.lsClass = 1 ∧ localNodes s i node.lsClass = 1 := by
  have hc : references (s.classes node.lsClass) = _ :=
    hInv.counted.count_of_target ho (mem_targets_of_refs (mem_refs_of_heapClass hi h))
  rw [count_targets, references, h1, UInt64.toNat_one] at hc
  have hp := localNodes_pos.mpr ⟨node, h, rfl⟩
  have hle := localNodes_le (s := s) hi node.lsClass
  omega

include hj

/-- Two threads do not refer to one collection that one of them holds alone. -/
theorem Held.apart {c : Slot} (h : Held s i c) (ho : CarvedOnce s c) (hij : i ≠ j) :
    (s.threads j).pc ≠ .placing c ∧ (∀ node, (s.threads j).pc = .deallocating node →
      node.lsClass ≠ c) ∧ ∀ node ∈ bag (s.threads j).mc.heapClass, node.lsClass ≠ c := by
  have hcr := count_add_le hi hj hij (fun k ↦ (s.threads k).pc.created) c
  have hdy := count_add_le hi hj hij (fun k ↦ (s.threads k).pc.dying) c
  have hlc := hInv.counted.live_count c ho
  have hl1 := hInv.counted.live_count_le ho
  change _ ≤ (ledger g s).created.count c at hcr
  change _ ≤ (ledger g s).dying.count c at hdy
  cases h with
  | placing h =>
    have hc := mem_created_of_placing hi h
    simp only [h, Pc.created, Multiset.count_singleton_self] at hcr
    refine ⟨fun hp ↦ ?_, fun node hd he ↦ ?_, fun node hn he ↦ ?_⟩
    · simp only [hp, Multiset.count_singleton_self] at hcr
      omega
    · subst he
      exact (hInv.counted.of_dying ho (mem_dying_of_deallocating hj hd)).2.1 hc
    · subst he
      exact (of_node hInv hj ho hn).1 hc
  | dying node' h hc =>
    subst hc
    have hc := mem_dying_of_deallocating hi h
    simp only [h, Pc.dying, Multiset.count_singleton_self] at hdy
    refine ⟨fun hp ↦ ?_, fun node hd he ↦ ?_, fun node hn he ↦ ?_⟩
    · exact (hInv.counted.of_dying ho hc).2.1 (mem_created_of_placing hj hp)
    · simp only [hd, he, Multiset.count_singleton_self] at hdy
      omega
    · exact (of_node hInv hj (he ▸ ho) hn).2 (he ▸ hc)
  | counted node' h hc h1 =>
    subst hc
    obtain ⟨hcr', hdy'⟩ := of_node hInv hi ho h
    refine ⟨fun hp ↦ ?_, fun node hd he ↦ ?_, fun node hn he ↦ ?_⟩
    · exact hcr' (mem_created_of_placing hj hp)
    · exact hdy' (he ▸ mem_dying_of_deallocating hj hd)
    · have hone := localNodes_eq_one hInv hi ho h h1
      have hpos := localNodes_pos.mpr ⟨node, hn, he⟩
      have hle := add_le_sum hi hj hij fun k ↦ localNodes s k node'.lsClass +
        (s.pools k).flatten.countP (·.lsClass = node'.lsClass)
      change _ ≤ nodesTo g s node'.lsClass at hle
      omega

end Apart

/-- The moves of other threads leave the collections that a thread alone refers to. -/
theorem Move.classes_of_held (hD : 0 ≤ g.deallocationDelay.toInt) (hi : i < g.threads)
    (hj : j < g.threads) (hInv : Inv g s) (hij : i ≠ j) (h : Move g R j s s') {c : Slot}
    (hc : Held s i c) (ho : CarvedOnce s' c) : s'.classes c = s.classes c := by
  obtain ⟨hp, -, hn⟩ := hc.apart hInv hi hj (ho.of_move h) hij
  obtain he | hl | hpl | ⟨node, hm, he⟩ := h.classes_cases hD hj hInv ho
  · exact he
  · exact absurd (hc.live hInv hi (ho.of_move h)) hl
  · exact absurd hpl hp
  · exact absurd he (hn node hm)

/-! ### Insertions -/

/-- What holds of a collection that is about to be placed and of the insertions of the log. -/
structure Placement (g : GOptions) (s : Sys σ) : Prop where
  placing : ∀ i < g.threads, ∀ c, (s.threads i).pc = .placing c →
    (s.threads i).mc.collections = (s.threads i).placed + 1 ∧ (CarvedOnce s c →
      (s.classes c).start = ⟨i, (s.threads i).placed⟩ ∧
        (s.classes c).lifetime = (s.threads i).liveness + g.deallocationDelay.toUInt32)
  inserted : ∀ i c b t l, .inserted i c b t l ∈ s.log → CarvedOnce s c →
    b.thread = i ∧ b.serial < (s.threads i).placed
  built : ∀ i c b t l, .inserted i c b t l ∈ s.log →
    ∃ j d, .allocated j c d ∈ s.log ∧ d.start = b

theorem Thread.placed_of_ne {th : Thread σ} (h : ∀ c, th.pc ≠ .placing c) :
    th.placed = th.mc.collections := by
  unfold placed
  split
  · next c hc => exact absurd hc (h c)
  · rfl

/-- Only a loop test leads to a placement. -/
theorem Move.ne_placing (h : Move g R i s s') (hl : (s.threads i).pc ≠ .looping)
    (c : Slot) : (s'.threads i).pc ≠ .placing c := by
  cases h with
  | create p₀ p rand c cache k hpc => exact absurd hpc hl
  | insert | fetch => simpa using enterAccess_ne g (.placing c) nofun nofun
  | unreference =>
    simp only [Sys.emit_threads, Sys.put_threads, Function.update_self]
    split <;> simp
  | endRemove pc hpc hn he => obtain rfl | rfl := he <;> simp
  | _ => simp

private theorem Move.collections (h : Move g R i s s') (hl : (s.threads i).pc ≠ .looping) :
    (s'.threads i).mc.collections = (s.threads i).mc.collections := by
  cases h with
  | create p₀ p rand c cache k hpc => exact absurd hpc hl
  | _ => simp

/-- The number of placed collections changes only with a placement. -/
theorem Move.placed (h : Move g R i s s') (hp : ∀ c, (s.threads i).pc ≠ .placing c) :
    (s'.threads i).placed = (s.threads i).placed := by
  rw [Thread.placed_of_ne hp]
  by_cases hl : (s.threads i).pc = .looping
  · cases h with
    | create => simp [Thread.placed]
    | _ => simp_all
  · rw [Thread.placed_of_ne (h.ne_placing hl), h.collections hl]

/-- A placement places one collection. -/
theorem Move.placed_of_placing (h : Move g R i s s') {c : Slot}
    (hp : (s.threads i).pc = .placing c)
    (hc : (s.threads i).mc.collections = (s.threads i).placed + 1) :
    (s'.threads i).placed = (s.threads i).placed + 1 := by
  have hl : (s.threads i).pc ≠ .looping := by
    rw [hp]
    simp
  rw [Thread.placed_of_ne (h.ne_placing hl), h.collections hl, hc]

/-- The log has the descriptor of a collection that is about to be placed. -/
theorem History.recorded_of_placing (hH : History s) (hInv : Inv g s) (hi : i < g.threads)
    {c : Slot} (hpc : (s.threads i).pc = .placing c) :
    ∃ j, .allocated j c (s.classes c).initial ∈ s.log := by
  apply hH.recorded c (hH.of_named hInv _)
  simp [RefCount.State.named, mem_created_of_placing hi hpc]

/-- Every move keeps the placement. -/
theorem Move.placement (hD : 0 ≤ g.deallocationDelay.toInt) (hi : i < g.threads)
    (hInv : Inv g s) (hH : History s) (hP : Placement g s) (h : Move g R i s s') :
    Placement g s' where
  placing j hj c hc := by
    by_cases hji : j = i
    · subst hji
      by_cases hl : (s.threads j).pc = .looping
      · cases h with
        | create p₀ p rand c' cache k hpc hr hp he hlt hz hb ht =>
          obtain rfl : c' = c := by simpa using hc
          simp [Thread.placed, newDescriptor]
        | _ => simp_all
      · exact absurd hc (h.ne_placing hl c)
    · rw [h.threads_of_ne hji] at hc ⊢
      obtain ⟨hn, hp⟩ := hP.placing j hj c hc
      refine ⟨hn, fun ho ↦ ?_⟩
      rw [h.classes_of_held hD hj hi hInv hji (.placing hc) ho]
      exact hp (ho.of_move h)
  inserted j c b t l he ho := by
    have hle : (s.threads j).placed ≤ (s'.threads j).placed := by
      by_cases hji : j = i
      · subst hji
        by_cases hp : ∀ c, (s.threads j).pc ≠ .placing c
        · exact Nat.le_of_eq (h.placed hp).symm
        · obtain ⟨c, hc⟩ := not_forall_not.mp hp
          rw [h.placed_of_placing hc (hP.placing j hi c hc).1]
          exact Nat.le_succ _
      · rw [h.threads_of_ne hji]
    obtain hm | ⟨rfl, hpc, rfl, -, -⟩ := h.inserted_cases he
    · obtain ⟨hb, hlt⟩ := hP.inserted j c b t l hm (ho.of_move h)
      exact ⟨hb, Nat.lt_of_lt_of_le hlt hle⟩
    · obtain ⟨hc, hst⟩ := hP.placing j hi c hpc
      rw [(hst (ho.of_move h)).1, h.placed_of_placing hpc hc]
      exact ⟨rfl, Nat.lt_succ_self _⟩
  built j c b t l he := by
    obtain hm | ⟨rfl, hpc, rfl, -, -⟩ := h.inserted_cases he
    · obtain ⟨k, d, ha, hb⟩ := hP.built j c b t l hm
      exact ⟨k, d, h.mem_log ha, hb⟩
    · obtain ⟨k, ha⟩ := hH.recorded_of_placing hInv hi hpc
      exact ⟨k, _, h.mem_log ha, rfl⟩

/-- The placement of every reachable state. -/
theorem Reachable.placement (hD : 0 ≤ g.deallocationDelay.toInt) (hs : Reachable g R s) :
    Placement g s := by
  induction hs with
  | start => constructor <;> simp [runAcdc]
  | step i hs hi h ih => exact (step_move h).placement hD hi (hs.inv hD) (hs.history hD) ih

/-- The collection being placed has not been inserted before. -/
theorem Placement.not_inserted (hP : Placement g s) (hInv : Inv g s) (hH : History s)
    (hi : i < g.threads) {c : Slot} (hpc : (s.threads i).pc = .placing c) (ho : CarvedOnce s c)
    (j : Nat) (c' : Slot) (t l : UInt32) : .inserted j c' (s.classes c).start t l ∉ s.log := by
  intro he
  obtain ⟨k, ha⟩ := hH.recorded_of_placing hInv hi hpc
  obtain ⟨k', d, ha', hd⟩ := hP.built j c' _ t l he
  obtain rfl := slot_unique (hH.born _) ha ha' rfl hd
  obtain ⟨hb, hlt⟩ := hP.inserted j c _ t l he ho
  obtain ⟨-, hst⟩ := hP.placing i hi c hpc
  rw [(hst ho).1] at hb hlt
  subst hb
  exact Nat.lt_irrefl _ hlt

end Acdc
