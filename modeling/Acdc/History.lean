import Acdc.Ledger

/-!
# The history of the collections

What the log says of the collections: every descriptor is the one that its allocation
recorded, no two descriptors have the same memory, and no memory is deallocated twice as long
as the slot of its descriptor is not carved again.
-/

namespace Acdc

variable {σ : Type}

/-- The deallocations of one collection: by whom and when, the last one first. -/
def deallocations : List Event → Block → List (Nat × UInt32)
  | [], _ => []
  | .deallocated i t _ d :: log, b =>
    if d.start = b then (i, t) :: deallocations log b else deallocations log b
  | _ :: log, b => deallocations log b

/-- The allocations of one collection: by whom. -/
def allocations : List Event → Block → List Nat
  | [], _ => []
  | .allocated i _ d :: log, b =>
    if d.start = b then i :: allocations log b else allocations log b
  | _ :: log, b => allocations log b

/-- A collection has been built in the slot. -/
def Allocated (log : List Event) (c : Slot) : Prop := ∃ i d, .allocated i c d ∈ log

theorem allocations_ne_nil {log : List Event} {b : Block} :
    allocations log b ≠ [] ↔ ∃ i c d, .allocated i c d ∈ log ∧ d.start = b := by
  induction log with
  | nil => simp [allocations]
  | cons e log ih =>
    cases e with
    | allocated i c d =>
      by_cases h : d.start = b
      · simp only [allocations, h, ite_true]
        exact ⟨fun _ ↦ ⟨i, c, d, by simp, h⟩, fun _ ↦ by simp⟩
      · simp only [allocations, h, ite_false, ih, List.mem_cons, Event.allocated.injEq]
        constructor
        · rintro ⟨j, c', d', hm, hb⟩
          exact ⟨j, c', d', .inr hm, hb⟩
        · rintro ⟨j, c', d', ⟨rfl, rfl, rfl⟩ | hm, hb⟩
          · exact absurd hb h
          · exact ⟨j, c', d', hm, hb⟩
    | _ => simpa [allocations] using ih

theorem Allocated.cons {log : List Event} {c : Slot} (h : Allocated log c) (e : Event) :
    Allocated (e :: log) c := by
  obtain ⟨i, d, hm⟩ := h
  exact ⟨i, d, List.mem_cons_of_mem _ hm⟩

theorem Allocated.of_live {log : List Event} {c : Slot} (h : c ∈ live log) : Allocated log c := by
  induction log with
  | nil => cases h
  | cons e log ih =>
    cases e with
    | allocated i c' d =>
      rcases Multiset.mem_cons.mp h with rfl | h
      · exact ⟨i, d, List.mem_cons_self⟩
      · exact (ih h).cons _
    | deallocated i t c' d => exact (ih (Multiset.mem_of_mem_erase h)).cons _
    | _ => exact (ih h).cons _

theorem allocations_append (new log : List Event) (b : Block) :
    allocations (new ++ log) b = allocations new b ++ allocations log b := by
  induction new with
  | nil => rfl
  | cons e new ih =>
    cases e with
    | allocated i c d =>
      by_cases h : d.start = b <;> simp [allocations, h, ih]
    | _ => simpa [allocations] using ih

theorem deallocations_ne_nil_of_mem {log : List Event} {i : Nat} {t : UInt32} {c : Slot}
    {d : LSClass} (h : .deallocated i t c d ∈ log) : deallocations log d.start ≠ [] := by
  induction log with
  | nil => cases h
  | cons e log ih =>
    obtain rfl | hm := List.mem_cons.mp h
    · simp [deallocations]
    · cases e with
      | deallocated j t' c' d' =>
        by_cases hb : d'.start = d.start
        · simp [deallocations, hb]
        · simpa [deallocations, hb] using ih hm
      | _ => simpa [deallocations] using ih hm

/-- A collection that was built once was built in one slot. -/
theorem slot_unique {log : List Event} {b : Block} (hb : (allocations log b).length ≤ 1)
    {i j : Nat} {c c' : Slot} {d d' : LSClass} (h : .allocated i c d ∈ log)
    (h' : .allocated j c' d' ∈ log) (hd : d.start = b) (hd' : d'.start = b) : c = c' := by
  have hne {i : Nat} {c : Slot} {d : LSClass} {log : List Event} (hm : .allocated i c d ∈ log)
      (hd : d.start = b) : 0 < (allocations log b).length :=
    List.length_pos_iff.mpr (allocations_ne_nil.mpr ⟨i, c, d, hm, hd⟩)
  induction log with
  | nil => cases h
  | cons e log ih =>
    have hle : (allocations log b).length ≤ (allocations (e :: log) b).length := by
      rw [← List.singleton_append, allocations_append, List.length_append]
      omega
    rcases List.mem_cons.mp h with rfl | hm <;> rcases List.mem_cons.mp h' with he | hm'
    · cases he
      rfl
    · have hpos := hne hm' hd'
      simp only [allocations, hd, if_true, List.length_cons] at hb
      omega
    · subst he
      have hpos := hne hm hd
      simp only [allocations, hd', if_true, List.length_cons] at hb
      omega
    · exact ih (hle.trans hb) hm hm'

/-- Events that neither allocate nor deallocate a collection. -/
def Event.quiet : Event → Bool
  | .allocated .. | .deallocated .. => false
  | _ => true

/-- The step neither allocates nor deallocates a collection. -/
structure Quiet (s s' : Sys σ) : Prop where
  initial : ∀ c, (s'.classes c).initial = (s.classes c).initial
  log : s'.log = s.log ∨ ∃ e : Event, e.quiet = true ∧ s'.log = e :: s.log
  collections : ∀ i, (s'.threads i).mc.collections = (s.threads i).mc.collections
  stat : ∀ i, (s'.threads i).mc.stat = (s.threads i).mc.stat

/-- What the log says of the collections. -/
structure History (s : Sys σ) : Prop where
  carved : ∀ i, ∀ k < (s.threads i).mc.classBufferCounter, Allocated s.log (classSlot i k)
  recorded : ∀ c, Allocated s.log c → ∃ i, .allocated i c (s.classes c).initial ∈ s.log
  allocated : ∀ i c d, .allocated i c d ∈ s.log →
    d.start.thread = i ∧ d.start.serial < (s.threads i).mc.collections
  born : ∀ b, (allocations s.log b).length ≤ 1
  kept : ∀ c ∈ live s.log, CarvedOnce s c → deallocations s.log (s.classes c).start = []
  deallocated : ∀ b, deallocations s.log b ≠ [] → allocations s.log b ≠ []
  once : ∀ i c d, .allocated i c d ∈ s.log → CarvedOnce s c →
    (deallocations s.log d.start).length ≤ 1

variable {g : GOptions} {R : Generator σ} {i : Nat} {s s' : Sys σ}

private theorem initial_putClass (classes : Slot → LSClass) (c : Slot) (k : UInt64) (c' : Slot) :
    (Function.update classes c { classes c with referenceCounter := k } c').initial =
      (classes c').initial := by
  by_cases h : c' = c
  · subst h
    simp
  · rw [Function.update_of_ne h]

/-- Only two control points allocate or deallocate. -/
theorem Move.quiet (h : Move g R i s s') (hl : (s.threads i).pc ≠ .looping)
    (hd : ∀ node, (s.threads i).pc ≠ .deallocating node) : Quiet s s' := by
  have hc : ∀ j, (s'.threads j).mc.collections = (s.threads j).mc.collections ∧
      (s'.threads j).mc.stat = (s.threads j).mc.stat := by
    intro j
    by_cases hj : j = i
    · subst hj
      cases h with
      | create p₀ p rand c cache k hpc => exact absurd hpc hl
      | deallocate node hpc => exact absurd hpc (hd node)
      | _ => simp
    · rw [h.threads_of_ne hj]
      exact ⟨rfl, rfl⟩
  refine ⟨?_, ?_, fun j ↦ (hc j).1, fun j ↦ (hc j).2⟩ <;> cases h with
  | create p₀ p rand c cache k hpc => exact absurd hpc hl
  | deallocate node hpc => exact absurd hpc (hd node)
  | _ => simp [initial_putClass, Event.quiet]

namespace Quiet

variable (h : Quiet s s')
include h

/-- The memory of a descriptor is that of the descriptor as it was built. -/
theorem start (c : Slot) : (s'.classes c).start = (s.classes c).start :=
  (LSClass.mk.inj (h.initial c)).2.2.2.2.2

/-- What only the allocations and deallocations of a log determine stays the same. -/
theorem of_log {β : Type} (f : List Event → β)
    (hf : ∀ (e : Event) (log : List Event), e.quiet = true → f (e :: log) = f log) :
    f s'.log = f s.log := by
  obtain hl | ⟨e, he, hl⟩ := h.log
  · rw [hl]
  · rw [hl, hf e _ he]

theorem live : live s'.log = live s.log :=
  h.of_log Acdc.live fun e _ he ↦ by cases e <;> simp_all [Event.quiet, Acdc.live]

theorem allocations (b : Block) : allocations s'.log b = allocations s.log b :=
  h.of_log (Acdc.allocations · b) fun e _ he ↦ by
    cases e <;> simp_all [Event.quiet, Acdc.allocations]

theorem deallocations (b : Block) : deallocations s'.log b = deallocations s.log b :=
  h.of_log (Acdc.deallocations · b) fun e _ he ↦ by
    cases e <;> simp_all [Event.quiet, Acdc.deallocations]

theorem allocated (i : Nat) (c : Slot) (d : LSClass) :
    .allocated i c d ∈ s'.log ↔ .allocated i c d ∈ s.log :=
  iff_of_eq (h.of_log (.allocated i c d ∈ ·) fun e _ he ↦ by
    cases e <;> simp_all [Event.quiet])

end Quiet

/-- A quiet step builds nothing. -/
theorem Quiet.allocated_iff (h : Quiet s s') (c : Slot) :
    Allocated s'.log c ↔ Allocated s.log c := by
  simp only [Allocated, h.allocated]

namespace History

section Slots

variable (hH : History s) {c c' : Slot}
include hH

/-- No two slots hold the same collection. -/
theorem distinct (hc : Allocated s.log c) (hc' : Allocated s.log c')
    (h : (s.classes c).start = (s.classes c').start) : c = c' := by
  obtain ⟨i, hm⟩ := hH.recorded c hc
  obtain ⟨j, hm'⟩ := hH.recorded c' hc'
  exact slot_unique (hH.born _) hm hm' h rfl

/-- The memory of a descriptor was handed out before. -/
theorem serial_lt (hc : Allocated s.log c) : (s.classes c).start.serial <
    (s.threads (s.classes c).start.thread).mc.collections := by
  obtain ⟨i, ha⟩ := hH.recorded c hc
  obtain ⟨rfl, hs⟩ := hH.allocated i c _ ha
  exact hs

/-- Where no slot is carved twice, no memory is deallocated twice. -/
theorem length_deallocations_le (hA : SlotsApart s) (b : Block) :
    (deallocations s.log b).length ≤ 1 := by
  by_cases hb : deallocations s.log b = []
  · rw [hb]
    exact Nat.zero_le _
  · obtain ⟨i, c, d, hm, rfl⟩ := allocations_ne_nil.mp (hH.deallocated b hb)
    exact hH.once i c d hm (hA.once c)

/-- Every class that a list or a thread names has been allocated. -/
theorem of_named (hInv : Inv g s) (hc : c ∈ (ledger g s).named LSCNode.lsClass) :
    Allocated s.log c := by
  have hm : c ∈ ∑ i ∈ Finset.range g.threads,
    Acdc.carved (classSlot i) (s.threads i).mc.classBufferCounter := hInv.counted.carved c hc
  obtain ⟨i, -, hm⟩ := Multiset.mem_sum.mp hm
  obtain ⟨k, hk, rfl⟩ := Multiset.mem_map.mp hm
  exact hH.carved i k (Multiset.mem_range.mp hk)

end Slots

private theorem of_quiet (hH : History s) (h : Quiet s s')
    (hn : ∀ i, (s'.threads i).mc.classBufferCounter = (s.threads i).mc.classBufferCounter) :
    History s' where
  carved i k hk := by
    rw [h.allocated_iff]
    exact hH.carved i k (hn i ▸ hk)
  recorded c hc := by
    obtain ⟨i, ha⟩ := hH.recorded c ((h.allocated_iff c).mp hc)
    exact ⟨i, (h.initial c).symm ▸ (h.allocated _ _ _).mpr ha⟩
  allocated i c d ha := by
    rw [h.collections]
    exact hH.allocated i c d ((h.allocated _ _ _).mp ha)
  born b := by
    rw [h.allocations]
    exact hH.born b
  kept c hc ho := by
    rw [h.live] at hc
    rw [h.start, h.deallocations]
    exact hH.kept c hc (by simpa [CarvedOnce, hn] using ho)
  deallocated b := by
    rw [h.deallocations, h.allocations]
    exact hH.deallocated b
  once i c d ha ho := by
    rw [h.deallocations]
    exact hH.once i c d ((h.allocated _ _ _).mp ha) (by simpa [CarvedOnce, hn] using ho)

private theorem fresh (hH : History s) (i : Nat) :
    allocations s.log ⟨i, (s.threads i).mc.collections⟩ = [] ∧
      deallocations s.log ⟨i, (s.threads i).mc.collections⟩ = [] := by
  have ha : allocations s.log ⟨i, (s.threads i).mc.collections⟩ = [] := by
    by_contra hb
    obtain ⟨j, c, d, hm, hd⟩ := allocations_ne_nil.mp hb
    have hs := hH.allocated j c d hm
    rw [hd] at hs
    exact Nat.lt_irrefl _ (hs.1 ▸ hs.2)
  refine ⟨ha, ?_⟩
  by_contra hb
  exact hH.deallocated _ hb ha

private theorem create (hH : History s) {c : Slot} {d : LSClass} {th : Thread σ}
    {size k₀ : Nat} {cache₀ cache : List Slot} (hk₀ : k₀ = (s.threads i).mc.classBufferCounter)
    (ht : Taken size (classSlot i) cache₀ k₀ c cache th.mc.classBufferCounter)
    (hd : d.initial = d) (hs : d.start = ⟨i, (s.threads i).mc.collections⟩)
    (hn : th.mc.collections = (s.threads i).mc.collections + 1) :
    History (((s.putClass c d).put i th).emit (.allocated i c d)) := by
  obtain ⟨ha, hz⟩ := hH.fresh i
  have hle (j : Nat) : (s.threads j).mc.collections ≤
      (Function.update s.threads i th j).mc.collections := by
    by_cases hj : j = i
    · subst hj
      simp [hn]
    · simp [Function.update_of_ne hj]
  have honce {c' : Slot} (h : CarvedOnce
      (((s.putClass c d).put i th).emit (.allocated i c d)) c') : CarvedOnce s c' := by
    by_cases ho : c'.owner = i
    · have hcounter := ht.counter.1
      simp only [CarvedOnce, Sys.emit_threads, Sys.put_threads, ho, Function.update_self] at h ⊢
      omega
    · simpa [CarvedOnce, Function.update_of_ne ho] using h
  have hold {c' : Slot} (h : c' ≠ c) : Function.update s.classes c d c' = s.classes c' :=
    Function.update_of_ne h ..
  refine ⟨fun j k hk ↦ ?_, fun c' hc' ↦ ?_, fun j c' d' h ↦ ?_, fun b ↦ ?_,
    fun c' hc' ho ↦ ?_, fun b hb ↦ ?_, fun j c' d' h ho ↦ ?_⟩
  · by_cases hj : j = i
    · subst hj
      simp only [Sys.emit_threads, Sys.put_threads, Function.update_self] at hk
      by_cases hlt : k < (s.threads j).mc.classBufferCounter
      · exact (hH.carved j k hlt).cons _
      · -- the slot has just been carved
        generalize hcounter : th.mc.classBufferCounter = k₁ at ht hk
        cases ht with
        | reused => omega
        | carved =>
          obtain rfl : k = k₀ := by omega
          exact ⟨j, d, List.mem_cons_self⟩
    · rw [Sys.emit_threads, Sys.put_threads, Function.update_of_ne hj] at hk
      exact (hH.carved j k hk).cons _
  · by_cases hcc : c' = c
    · subst hcc
      exact ⟨i, by simp [hd]⟩
    · obtain ⟨j, d', hm⟩ := hc'
      obtain ⟨j', hj'⟩ := hH.recorded c' ⟨j, d', by simpa [hcc] using hm⟩
      exact ⟨j', List.mem_cons_of_mem _ (by simpa [hold hcc] using hj')⟩
  · rcases List.mem_cons.mp h with h | h
    · obtain ⟨rfl, rfl, rfl⟩ := Event.allocated.inj h
      simp [hs, hn]
    · obtain ⟨rfl, hlt⟩ := hH.allocated j c' d' h
      exact ⟨rfl, Nat.lt_of_lt_of_le hlt (hle _)⟩
  · simp only [Sys.emit_log, Sys.put_log, Sys.putClass_log, allocations, hs]
    split
    · next h =>
      rw [← h, ha]
      exact Nat.le_refl 1
    · exact hH.born b
  · by_cases hcc : c' = c
    · subst hcc
      simpa [deallocations, hs] using hz
    · have hl : c' ∈ live s.log := (Multiset.mem_cons.mp hc').resolve_left hcc
      simpa [deallocations, hold hcc] using hH.kept c' hl (honce ho)
  · simp only [Sys.emit_log, Sys.put_log, Sys.putClass_log, allocations]
    split
    · exact List.cons_ne_nil _ _
    · exact hH.deallocated b hb
  · rcases List.mem_cons.mp h with h | h
    · obtain ⟨rfl, rfl, rfl⟩ := Event.allocated.inj h
      simp [deallocations, hs, hz]
    · exact hH.once j c' d' h (honce ho)

private theorem deallocate (hH : History s) {c : Slot} {th : Thread σ} {t : UInt32}
    (hc : Allocated s.log c) (hl : CarvedOnce s c → c ∈ live s.log)
    (h1 : CarvedOnce s c → (live s.log).count c ≤ 1)
    (hn : th.mc.collections = (s.threads i).mc.collections)
    (hk : th.mc.classBufferCounter = (s.threads i).mc.classBufferCounter) :
    History ((s.put i th).emit (.deallocated i t c (s.classes c))) := by
  have hcol (j : Nat) : (Function.update s.threads i th j).mc.collections =
      (s.threads j).mc.collections ∧ (Function.update s.threads i th j).mc.classBufferCounter =
        (s.threads j).mc.classBufferCounter := by
    by_cases hj : j = i
    · subst hj
      simp [hn, hk]
    · simp [Function.update_of_ne hj]
  have honce {c' : Slot}
      (h : CarvedOnce ((s.put i th).emit (.deallocated i t c (s.classes c))) c') :
      CarvedOnce s c' := by
    simpa [CarvedOnce, hcol] using h
  have hallocated {j : Nat} {c' : Slot} {d : LSClass} (h : .allocated j c' d ∈
      ((s.put i th).emit (.deallocated i t c (s.classes c))).log) : .allocated j c' d ∈ s.log := by
    simpa using h
  refine ⟨fun j k hlt ↦ ?_, fun c' hc' ↦ ?_, fun j c' d h ↦ ?_, hH.born, fun c' hc' ho ↦ ?_,
    fun b hb ↦ ?_, fun j c' d h ho ↦ ?_⟩
  · simp only [Sys.emit_threads, Sys.put_threads, hcol] at hlt
    exact (hH.carved j k hlt).cons _
  · obtain ⟨j, d, hm⟩ := hc'
    obtain ⟨j', hj'⟩ := hH.recorded c' ⟨j, d, hallocated hm⟩
    exact ⟨j', List.mem_cons_of_mem _ hj'⟩
  · simp only [Sys.emit_threads, Sys.put_threads, hcol]
    exact hH.allocated j c' d (hallocated h)
  · have hl' : c' ∈ live s.log := Multiset.mem_of_mem_erase hc'
    have hne : c' ≠ c := by
      rintro rfl
      have hpos := Multiset.count_pos.mpr hc'
      have hle := h1 (honce ho)
      simp only [Sys.emit_log, Sys.put_log, live, Multiset.count_erase_self] at hpos
      omega
    have hs : (s.classes c).start ≠ (s.classes c').start :=
      fun h ↦ hne (hH.distinct hc (.of_live hl') h).symm
    simpa [deallocations, hs] using hH.kept c' hl' (honce ho)
  · by_cases h : (s.classes c).start = b
    · obtain ⟨j, hj⟩ := hH.recorded c hc
      exact allocations_ne_nil.mpr ⟨j, c, _, List.mem_cons_of_mem _ hj, h⟩
    · exact hH.deallocated b (by simpa [deallocations, h] using hb)
  · simp only [Sys.emit_log, Sys.put_log, deallocations]
    split
    · next hst =>
      -- the slot of this collection is the one that is deallocated
      obtain ⟨j', hj'⟩ := hH.recorded c hc
      obtain rfl := slot_unique (hH.born _) hj' (hallocated h) hst rfl
      rw [← hst, hH.kept c (hl (honce ho)) (honce ho)]
      exact Nat.le_refl 1
    · exact hH.once j c' d (hallocated h) (honce ho)

end History

/-- Every move keeps the history. -/
theorem Move.history (hi : i < g.threads) (hInv : Inv g s) (hH : History s)
    (h : Move g R i s s') : History s' := by
  have h' := h
  have hcounter (j : Nat) (hl : (s.threads i).pc ≠ .looping) :
      (s'.threads j).mc.classBufferCounter = (s.threads j).mc.classBufferCounter := by
    by_cases hj : j = i
    · subst hj
      cases h with
      | create p₀ p rand c cache k hpc => exact absurd hpc hl
      | _ => simp
    · rw [h.threads_of_ne hj]
  cases h with
  | create p₀ p rand c cache k hpc hr hp he hl hz hb ht => exact hH.create rfl ht rfl rfl rfl
  | deallocate node hpc hk =>
    have hdying := mem_dying_of_deallocating hi hpc
    have hnamed : node.lsClass ∈ (ledger g s).named LSCNode.lsClass := by
      simp [RefCount.State.named, hdying]
    exact hH.deallocate (hH.of_named hInv hnamed)
      (fun ho ↦ (hInv.counted.of_dying ho hdying).1) hInv.counted.live_count_le rfl rfl
  | _ => exact hH.of_quiet (h'.quiet (by simp [*]) (by simp [*])) fun j ↦ hcounter j (by simp [*])

/-- The history of every reachable state. -/
theorem Reachable.history_of_hasWheel (hw : g.HasWheel) (hs : Reachable g R s) : History s := by
  induction hs with
  | start =>
    constructor <;>
      simp [runAcdc, createMutatorContext, Allocated, live, allocations, deallocations]
  | step i hs hi h ih => exact (step_move h).history hi (hs.inv_of_hasWheel hw) ih

theorem Reachable.history (hD : 0 ≤ g.deallocationDelay.toInt) (hs : Reachable g R s) :
    History s :=
  hs.history_of_hasWheel (GOptions.hasWheel hD)

end Acdc
