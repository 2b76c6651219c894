import Acdc.Accounting
import Acdc.MemStats

/-!
# The baseline sample

With `do_baseline_rss` a memory sample is what all threads have allocated less what they have
deallocated; `src/acdc.c:246–258`. Thread 0 reads the counters of the threads one after the
other, the allocated before the deallocated bytes of each, and the others do not stop: every
read is a step of its own.
-/

namespace Acdc

variable {σ : Type}

/-- A sample in the making: the number of counters that have been read and the totals so far.
For each thread the logs are those at the reads of its two counters; no function reads them. -/
structure Sample where
  reads : Nat
  totalBytesAllocated : UInt64
  totalBytesDeallocated : UInt64
  allocLog : Nat → List Event
  deallocLog : Nat → List Event

namespace Sample

/-- A sample before its first read; `src/acdc.c:250–251`. -/
def start : Sample := ⟨0, 0, 0, fun _ ↦ [], fun _ ↦ []⟩

/-- The next read of a counter; `src/acdc.c:252–256`. -/
@[simps] def read (p : Sample) (s : Sys σ) : Sample :=
  let i := p.reads / 2
  let stat := (s.threads i).mc.stat
  { reads := p.reads + 1
    totalBytesAllocated :=
      if p.reads % 2 = 0 then p.totalBytesAllocated + stat.bytesAllocated
      else p.totalBytesAllocated
    totalBytesDeallocated :=
      if p.reads % 2 = 0 then p.totalBytesDeallocated
      else p.totalBytesDeallocated + stat.bytesDeallocated
    allocLog := if p.reads % 2 = 0 then Function.update p.allocLog i s.log else p.allocLog
    deallocLog :=
      if p.reads % 2 = 0 then p.deallocLog else Function.update p.deallocLog i s.log }

/-- The value of the sample; `src/acdc.c:257–258`. -/
def currentRss (p : Sample) : Int64 :=
  ((p.totalBytesAllocated - p.totalBytesDeallocated) / 1024).toInt64

/-- The deallocations of thread `j` that a sample counts, as far as it is known. -/
def deallocView (p : Sample) (s : Sys σ) (j : Nat) : List Event :=
  if 2 * j + 1 < p.reads then p.deallocLog j else s.log

/-- Whether a sample counts the allocation of a collection. -/
def Counts (p : Sample) (b : Block) : Prop := allocations (p.allocLog b.thread) b ≠ []

end Sample

/-- Runs in which thread 0 takes a baseline sample at the end of each of its quanta. While it
does, `P` holds of every step, the state before it and the sample. -/
inductive Sampling (g : GlobalOptions) (R : Generator σ) (P : Nat → Sys σ → Sample → Prop) :
    Sys σ → MemStat → Option Sample → Prop where
  | start (h : Defined g.toGOptions) : Sampling g R P (runAcdc g.toGOptions R) .start none
  | quiet {s s' : Sys σ} {m : MemStat} (i : Nat) (hs : Sampling g R P s m none)
      (hi : i < g.threads) (h : step g.toGOptions R i s = .ok s') (hq : ¬ EndsQuantum i s s') :
      Sampling g R P s' m none
  | enter {s s' : Sys σ} {m : MemStat} (hs : Sampling g R P s m none)
      (hb : g.doBaselineRss = 1) (hi : 0 < g.threads) (h : step g.toGOptions R 0 s = .ok s')
      (hq : EndsQuantum 0 s s') : Sampling g R P s m (some .start)
  | other {s s' : Sys σ} {m : MemStat} {p : Sample} (i : Nat)
      (hs : Sampling g R P s m (some p)) (h0 : i ≠ 0) (hi : i < g.threads)
      (h : step g.toGOptions R i s = .ok s') (hP : P i s p) : Sampling g R P s' m (some p)
  | read {s : Sys σ} {m : MemStat} {p : Sample} (hs : Sampling g R P s m (some p))
      (hr : p.reads < 2 * g.threads) (hP : P 0 s p) : Sampling g R P s m (some (p.read s))
  | leave {s s' : Sys σ} {m : MemStat} {p : Sample} (hs : Sampling g R P s m (some p))
      (hr : p.reads = 2 * g.threads) (hi : 0 < g.threads)
      (h : step g.toGOptions R 0 s = .ok s') (hq : EndsQuantum 0 s s') :
      Sampling g R P s' (getAndPrintMemstats g (s.threads 0).mc.time p.currentRss m) none

/-- A complete sample stores the true difference of what it has read. -/
structure TrueAmount (n : Nat) (p : Sample) : Prop where
  le : p.totalBytesDeallocated ≤ p.totalBytesAllocated
  currentRss : p.currentRss.toInt =
    (((∑ i ∈ Finset.range n, allocatedBy LSClass.bytes i (p.allocLog i) : Nat) : Int) -
      (∑ i ∈ Finset.range n, deallocatedBy LSClass.bytes i (p.deallocLog i) : Nat)) / 1024

/-- A step does not let the sample count a deallocation without its allocation: a thread whose
deallocations have not been read deallocates no collection that its builder has allocated
after its own counter had been read. The bytes of all threads fit a counter, and no thread has
gone round its class buffer. -/
structure Counted (g : GOptions) (i : Nat) (s : Sys σ) (p : Sample) : Prop where
  apart : SlotsApart s
  fits : ∑ a ∈ Finset.range g.threads, allocatedBy LSClass.bytes a s.log < 2 ^ 64
  counts : ∀ node, (s.threads i).pc = .deallocating node → p.reads ≤ 2 * i + 1 →
    2 * (s.classes node.lsClass).start.thread < p.reads →
      p.Counts (s.classes node.lsClass).start

variable {g : GlobalOptions} {R : Generator σ} {P : Nat → Sys σ → Sample → Prop} {s s' : Sys σ}
  {m : MemStat} {o : Option Sample} {p : Sample}

/-- A run with baseline samples is a run with samples. -/
theorem Sampling.sampled (hs : Sampling g R P s m o) : Sampled g R s m := by
  induction hs with
  | start h => exact .start h
  | quiet i _ hi h hq ih => exact .quiet i ih hi h hq
  | enter _ _ _ _ _ ih => exact ih
  | other i _ h0 hi h _ ih => exact .quiet i ih hi h fun hq ↦ h0 hq.1
  | read _ _ _ ih => exact ih
  | leave _ _ hi h hq ih => exact .sample _ ih hi h hq

/-! ### What a sample has read -/

/-- The totals of a sample are those of the logs at its reads, and it counts no deallocation
of a collection whose allocation it has missed. -/
structure Covers (n : Nat) (s : Sys σ) (p : Sample) : Prop where
  reads_le : p.reads ≤ 2 * n
  allocLog : ∀ a, 2 * a < p.reads → p.allocLog a <:+ s.log
  deallocLog : ∀ j, 2 * j + 1 < p.reads → p.deallocLog j <:+ s.log
  allocated : p.totalBytesAllocated = UInt64.ofNat
    (∑ a ∈ Finset.range ((p.reads + 1) / 2), allocatedBy LSClass.bytes a (p.allocLog a))
  deallocated : p.totalBytesDeallocated = UInt64.ofNat
    (∑ j ∈ Finset.range (p.reads / 2), deallocatedBy LSClass.bytes j (p.deallocLog j))
  fits : ∑ a ∈ Finset.range ((p.reads + 1) / 2), allocatedBy LSClass.bytes a (p.allocLog a) <
    2 ^ 64
  counts : ∀ j t c d, .deallocated j t c d ∈ p.deallocView s j →
    2 * d.start.thread < p.reads → p.Counts d.start

private theorem allocatedBy_suffix {log log' : List Event} (h : log <:+ log')
    (f : LSClass → Nat) (i : Nat) : allocatedBy f i log ≤ allocatedBy f i log' := by
  obtain ⟨new, rfl⟩ := h
  rw [allocatedBy_append]
  exact Nat.le_add_left _ _

private theorem deallocatedBy_suffix {log log' : List Event} (h : log <:+ log')
    (f : LSClass → Nat) (i : Nat) : deallocatedBy f i log ≤ deallocatedBy f i log' := by
  obtain ⟨new, rfl⟩ := h
  rw [deallocatedBy_append]
  exact Nat.le_add_left _ _

private theorem Move.log_cases {g : GOptions} {i : Nat} (h : Move g R i s s') :
    s'.log = s.log ∨ ∃ e, s'.log = e :: s.log ∧ ∀ j t c d, e = .deallocated j t c d →
      j = i ∧ ∃ node, (s.threads i).pc = .deallocating node ∧ d = s.classes node.lsClass := by
  cases h with
  | deallocate node hpc =>
    refine .inr ⟨_, rfl, fun j t c d he ↦ ?_⟩
    cases he
    exact ⟨rfl, node, hpc, rfl⟩
  | arrive | depart | nextLClass | tick | resume | fetch | endRemove | recycle => exact .inl rfl
  | _ => exact .inr ⟨_, rfl, nofun⟩

theorem Covers.start (n : Nat) (s : Sys σ) : Covers n s .start where
  reads_le := Nat.zero_le _
  allocLog _ h := absurd h (Nat.not_lt_zero _)
  deallocLog _ h := absurd h (Nat.not_lt_zero _)
  allocated := rfl
  deallocated := rfl
  fits := by decide
  counts _ _ _ _ _ h := absurd h (Nat.not_lt_zero _)

/-- The steps of the other threads keep what a sample covers. -/
theorem Covers.step {g : GOptions} {i : Nat} (hc : Covers g.threads s p) (h : Move g R i s s')
    (hP : Counted g i s p) : Covers g.threads s' p := by
  have hlog : s.log <:+ s'.log := by
    obtain hl | ⟨e, hl, -⟩ := h.log_cases
    · rw [hl]
    · rw [hl]
      exact List.suffix_cons e s.log
  refine { hc with
    allocLog := fun a ha ↦ (hc.allocLog a ha).trans hlog
    deallocLog := fun j hj ↦ (hc.deallocLog j hj).trans hlog
    counts := fun j t c d hd hr ↦ ?_ }
  have hold := hc.counts j t c d
  unfold Sample.deallocView at hd hold
  by_cases hj : 2 * j + 1 < p.reads
  · rw [if_pos hj] at hd hold
    exact hold hd hr
  · rw [if_neg hj] at hd hold
    obtain hl | ⟨e, hl, he⟩ := h.log_cases
    · exact hold (hl ▸ hd) hr
    · obtain hd | hd := List.mem_cons.mp (hl ▸ hd)
      · obtain ⟨rfl, node, hpc, rfl⟩ := he j t c d hd.symm
        exact hP.counts node hpc (Nat.le_of_not_lt hj) hr
      · exact hold hd hr

private theorem sum_update_range {β : Type} (f : Nat → β → Nat) (l : Nat → β) (x : β) (a : Nat) :
    ∑ b ∈ Finset.range (a + 1), f b (Function.update l a x b) =
      ∑ b ∈ Finset.range a, f b (l b) + f a x := by
  rw [Finset.sum_range_succ, Function.update_self]
  congr 1
  apply Finset.sum_congr rfl
  intro b hb
  rw [Function.update_of_ne (Nat.ne_of_lt (Finset.mem_range.mp hb))]

private theorem deallocView_read (p : Sample) (s : Sys σ) (j : Nat) :
    (p.read s).deallocView s j = p.deallocView s j := by
  unfold Sample.deallocView
  simp only [Sample.read_reads, Sample.read_deallocLog]
  by_cases h2 : p.reads % 2 = 0
  · rw [if_pos h2]
    by_cases hj : 2 * j + 1 < p.reads
    · rw [if_pos hj, if_pos (by omega)]
    · rw [if_neg hj, if_neg (by omega)]
  · rw [if_neg h2]
    by_cases hj : 2 * j + 1 < p.reads
    · rw [if_pos hj, if_pos (by omega), Function.update_of_ne (by omega)]
    · rw [if_neg hj]
      by_cases hja : j = p.reads / 2
      · rw [hja, if_pos (by omega), Function.update_self]
      · rw [if_neg (by omega)]

private theorem Covers.deallocView {n : Nat} (hc : Covers n s p) (j : Nat) :
    p.deallocView s j <:+ s.log := by
  unfold Sample.deallocView
  split
  · next hj => exact hc.deallocLog j hj
  · exact List.suffix_refl s.log

private theorem Covers.read_allocated {n a : Nat} (hc : Covers n s p) (ha : p.reads = 2 * a)
    (hr : p.reads < 2 * n)
    (hs : (s.threads a).mc.stat.bytesAllocated = UInt64.ofNat (allocatedBy LSClass.bytes a s.log))
    (hf : ∑ a ∈ Finset.range n, allocatedBy LSClass.bytes a s.log < 2 ^ 64)
    (hd : ∀ j t c d, .deallocated j t c d ∈ s.log → allocations s.log d.start ≠ []) :
    Covers n s (p.read s) := by
  have h2 : p.reads % 2 = 0 := by omega
  have h3 : p.reads / 2 = a := by omega
  have h4 : (p.reads + 1) / 2 = a := by omega
  have h5 : (p.reads + 1 + 1) / 2 = a + 1 := by omega
  have hsuffix (b : Nat) (hb : b ≤ a) : Function.update p.allocLog a s.log b <:+ s.log := by
    by_cases hba : b = a
    · rw [hba, Function.update_self]
    · rw [Function.update_of_ne hba]
      exact hc.allocLog b (by omega)
  have hA := hc.allocated
  have hD := hc.deallocated
  rw [h4] at hA
  rw [h3] at hD
  constructor
  · show p.reads + 1 ≤ 2 * n
    omega
  · intro b hb
    simp only [Sample.read_reads, Sample.read_allocLog, if_pos h2, h3] at hb ⊢
    exact hsuffix b (by omega)
  · intro j hj
    simp only [Sample.read_reads, Sample.read_deallocLog, if_pos h2] at hj ⊢
    exact hc.deallocLog j (by omega)
  · simp only [Sample.read_reads, Sample.read_totalBytesAllocated, Sample.read_allocLog, if_pos h2,
      h3, h5, sum_update_range (allocatedBy LSClass.bytes), UInt64.ofNat_add, hA, hs]
  · simp only [Sample.read_reads, Sample.read_totalBytesDeallocated, Sample.read_deallocLog,
      if_pos h2, h4, hD]
  · simp only [Sample.read_reads, Sample.read_allocLog, if_pos h2, h3, h5]
    refine Nat.lt_of_le_of_lt ?_ hf
    calc ∑ b ∈ Finset.range (a + 1), allocatedBy LSClass.bytes b
            (Function.update p.allocLog a s.log b)
        ≤ ∑ b ∈ Finset.range (a + 1), allocatedBy LSClass.bytes b s.log :=
          Finset.sum_le_sum fun b hb ↦ allocatedBy_suffix
            (hsuffix b (Nat.le_of_lt_succ (Finset.mem_range.mp hb))) _ b
      _ ≤ ∑ b ∈ Finset.range n, allocatedBy LSClass.bytes b s.log :=
          Finset.sum_le_sum_of_subset (Finset.range_mono (by omega))
  · intro j t c d hm ht
    rw [deallocView_read] at hm
    simp only [Sample.Counts, Sample.read_reads, Sample.read_allocLog, if_pos h2, h3] at ht ⊢
    by_cases hta : d.start.thread = a
    · rw [hta, Function.update_self]
      exact hd j t c d ((hc.deallocView j).mem hm)
    · rw [Function.update_of_ne hta]
      exact hc.counts j t c d hm (by omega)

private theorem Covers.read_deallocated {n a : Nat} (hc : Covers n s p)
    (ha : p.reads = 2 * a + 1) (hr : p.reads < 2 * n)
    (hs : (s.threads a).mc.stat.bytesDeallocated =
      UInt64.ofNat (deallocatedBy LSClass.bytes a s.log)) : Covers n s (p.read s) := by
  have h2 : ¬ p.reads % 2 = 0 := by omega
  have h3 : p.reads / 2 = a := by omega
  have h4 : (p.reads + 1) / 2 = a + 1 := by omega
  have h5 : (p.reads + 1 + 1) / 2 = a + 1 := by omega
  have hA := hc.allocated
  have hD := hc.deallocated
  have hF := hc.fits
  rw [h4] at hA hF
  rw [h3] at hD
  constructor
  · show p.reads + 1 ≤ 2 * n
    omega
  · intro b hb
    simp only [Sample.read_reads, Sample.read_allocLog, if_neg h2] at hb ⊢
    exact hc.allocLog b (by omega)
  · intro j hj
    simp only [Sample.read_reads, Sample.read_deallocLog, if_neg h2, h3] at hj ⊢
    by_cases hja : j = a
    · rw [hja, Function.update_self]
    · rw [Function.update_of_ne hja]
      exact hc.deallocLog j (by omega)
  · simp only [Sample.read_reads, Sample.read_totalBytesAllocated, Sample.read_allocLog, if_neg h2,
      h5, hA]
  · simp only [Sample.read_reads, Sample.read_totalBytesDeallocated, Sample.read_deallocLog,
      if_neg h2, h3, h4, sum_update_range (deallocatedBy LSClass.bytes), UInt64.ofNat_add, hD, hs]
  · simpa only [Sample.read_reads, Sample.read_allocLog, if_neg h2, h5] using hF
  · intro j t c d hm ht
    rw [deallocView_read] at hm
    simp only [Sample.Counts, Sample.read_reads, Sample.read_allocLog, if_neg h2] at ht ⊢
    exact hc.counts j t c d hm (by omega)

section Runs

variable {g : GOptions} {R : Generator σ} {s : Sys σ}

private theorem getSharedLClasses_nil (time : UInt32) (shared : HeapClass) :
    (getSharedLClasses g time [] shared).1 = [] := by
  have hstep (p : HeapClass × HeapClass) (i : Nat) (hp : p.1 = []) :
      (fetchLClass g time p i).1 = [] := by
    unfold fetchLClass
    split
    · rw [hp]
      exact List.modify_nil ..
    · exact hp
  unfold getSharedLClasses
  generalize List.range g.life = entries
  have hfold (entries : List Nat) (p : HeapClass × HeapClass) (hp : p.1 = []) :
      (entries.foldl (fetchLClass g time) p).1 = [] := by
    induction entries generalizing p with
    | nil => exact hp
    | cons i entries ih => exact ih _ (hstep p i hp)
  exact hfold entries _ rfl

private theorem not_deallocating (hw : ¬ g.HasWheel) (hs : Reachable g R s) (i : Nat) :
    (s.threads i).mc.heapClass = [] ∧ ∀ node, (s.threads i).pc ≠ .deallocating node := by
  induction hs with
  | start =>
    have hz : g.wheelSize = 0 := by
      simp only [GOptions.HasWheel, Classical.not_imp, Nat.not_lt, Nat.le_zero] at hw
      exact hw.2
    exact ⟨by simp [runAcdc, createMutatorContext, hz], by simp [runAcdc]⟩
  | @step s s' j _ _ h ih =>
    obtain ⟨hn, hd⟩ := ih
    have hm := step_move h
    by_cases hij : i = j
    · subst hij
      cases hm with
      | fetch c hpc =>
        simp only [Sys.put_threads, Function.update_self, hn]
        exact ⟨getSharedLClasses_nil _ _, fun node ↦ enterAccess_ne g _ (by simp) (by simp)⟩
      | insert c node cache k rand hpc hsh ht hl =>
        rw [hn] at hl
        exact absurd hl (Nat.not_lt_zero _)
      | unreference node rest hpc hh | endRemove pc hpc hh =>
        rw [hn] at hh
        cases hh
      | _ => simpa using hn
    · rw [hm.threads_of_ne hij]
      exact ⟨hn, hd⟩

private theorem not_deallocated (hw : ¬ g.HasWheel) (hs : Reachable g R s) (i : Nat)
    (t : UInt32) (c : Slot) (d : LSClass) : .deallocated i t c d ∉ s.log := by
  induction hs with
  | start => exact List.not_mem_nil
  | @step s s' j hs' _ h ih =>
    obtain hl | ⟨e, hl, he⟩ := (step_move h).log_cases
    · rw [hl]
      exact ih
    · rw [hl, List.mem_cons, not_or]
      refine ⟨fun hx ↦ ?_, ih⟩
      obtain ⟨-, node, hpc, -⟩ := he i t c d hx.symm
      exact (not_deallocating hw hs' j).2 node hpc

private theorem allocations_ne_nil_of_deallocated (hs : Reachable g R s) (i : Nat) (t : UInt32)
    (c : Slot) (d : LSClass) (h : .deallocated i t c d ∈ s.log) :
    allocations s.log d.start ≠ [] := by
  by_cases hw : g.HasWheel
  · exact (hs.history_of_hasWheel hw).deallocated _ (deallocations_ne_nil_of_mem h)
  · exact absurd h (not_deallocated hw hs i t c d)

private theorem lt_threads_of_allocated (hs : Reachable g R s) (i : Nat) (c : Slot)
    (d : LSClass) (h : .allocated i c d ∈ s.log) : i < g.threads := by
  induction hs with
  | start => cases h
  | @step s s' j hs' hj hst ih =>
    cases step_move hst with
    | create =>
      obtain h | h := List.mem_cons.mp h
      · cases h
        exact hj
      · exact ih h
    | _ => exact ih (by simpa using h)

end Runs

/-- The sample covers what it has read, in runs whose steps are all counted. -/
theorem Sampling.covers (hs : Sampling g R (Counted g.toGOptions) s m (some p)) :
    Covers g.threads s p := by
  generalize ho : some p = o at hs
  induction hs generalizing p with
  | start | quiet | leave => cases ho
  | enter =>
    cases ho
    exact .start _ _
  | other i hs' _ _ h hP ih =>
    cases ho
    exact (ih rfl).step (step_move h) hP
  | @read s m q hs' hr hP ih =>
    cases ho
    have hreach := hs'.sampled.reachable
    have hc := ih rfl
    by_cases h2 : q.reads % 2 = 0
    · exact hc.read_allocated (a := q.reads / 2) (by omega) hr
        (hreach.countersOf _).bytesAllocated hP.fits (allocations_ne_nil_of_deallocated hreach)
    · exact hc.read_deallocated (a := q.reads / 2) (by omega) hr
        (hreach.countersOf _).bytesDeallocated

/-! ### The amount of a complete sample -/

-- Bytes of a collection whose allocation a sample counts.
private def Sample.counted (p : Sample) (d : LSClass) : Nat :=
  if allocations (p.allocLog d.start.thread) d.start = [] then 0 else d.bytes

private theorem allocatedBy_counted_le {g : GOptions} (hs : Reachable g R s) (hw : g.HasWheel)
    {a : Nat} (ha : p.allocLog a <:+ s.log) :
    allocatedBy p.counted a s.log ≤ allocatedBy LSClass.bytes a (p.allocLog a) := by
  have hH := hs.history_of_hasWheel hw
  obtain ⟨new, hnew⟩ := ha
  have hzero : allocatedBy p.counted a new ≤ allocatedBy (fun _ ↦ 0) a new := by
    apply allocatedBy_le
    intro c d hm
    unfold Sample.counted
    split
    · exact Nat.le_refl 0
    · next hne =>
      -- a block is allocated once, so one that was counted is not allocated later
      have hmem : .allocated a c d ∈ s.log := hnew ▸ List.mem_append_left _ hm
      have hthread := (hH.allocated a c d hmem).1
      have hborn := hH.born d.start
      rw [← hnew, allocations_append, List.length_append] at hborn
      have h1 := List.length_pos_iff.mpr (allocations_ne_nil.mpr ⟨a, c, d, hm, rfl⟩)
      have h2 := List.length_pos_iff.mpr (hthread ▸ hne)
      omega
  have hle : allocatedBy p.counted a (p.allocLog a) ≤
      allocatedBy LSClass.bytes a (p.allocLog a) := by
    apply allocatedBy_le
    intro c d _
    unfold Sample.counted
    split
    · exact Nat.zero_le _
    · exact Nat.le_refl _
  rw [← hnew, allocatedBy_append]
  rw [allocatedBy_zero] at hzero
  omega

private theorem Covers.deallocated_le {g : GOptions} (hc : Covers g.threads s p)
    (hs : Reachable g R s) (hA : SlotsApart s) (hr : p.reads = 2 * g.threads) :
    ∑ i ∈ Finset.range g.threads, deallocatedBy LSClass.bytes i (p.deallocLog i) ≤
      ∑ i ∈ Finset.range g.threads, allocatedBy LSClass.bytes i (p.allocLog i) := by
  by_cases hw : g.HasWheel
  · have hcounted (j : Nat) (hj : j ∈ Finset.range g.threads) :
        deallocatedBy LSClass.bytes j (p.deallocLog j) ≤
          deallocatedBy p.counted j (p.deallocLog j) := by
      have hlt := Finset.mem_range.mp hj
      have hsuffix := hc.deallocLog j (by omega)
      apply deallocatedBy_le
      intro t c d hm
      obtain ⟨i, c', d', hmem, hstart⟩ := allocations_ne_nil.mp
        (allocations_ne_nil_of_deallocated hs j t c d (hsuffix.mem hm))
      have hthread : d.start.thread < g.threads := by
        rw [← hstart, ((hs.history_of_hasWheel hw).allocated i c' d' hmem).1]
        exact lt_threads_of_allocated hs i c' d' hmem
      have hne : p.Counts d.start := by
        apply hc.counts j t c d _ (by omega)
        rwa [Sample.deallocView, if_pos (by omega)]
      rw [Sample.counted, if_neg hne]
    calc ∑ j ∈ Finset.range g.threads, deallocatedBy LSClass.bytes j (p.deallocLog j)
        ≤ ∑ j ∈ Finset.range g.threads, deallocatedBy p.counted j (p.deallocLog j) :=
          Finset.sum_le_sum hcounted
      _ ≤ ∑ j ∈ Finset.range g.threads, deallocatedBy p.counted j s.log :=
          Finset.sum_le_sum fun j hj ↦ deallocatedBy_suffix
            (hc.deallocLog j (by have := Finset.mem_range.mp hj; omega)) _ j
      _ ≤ ∑ a ∈ Finset.range g.threads, allocatedBy p.counted a s.log := by
          rw [hs.balance (fun _ _ ↦ rfl) hw hA]
          exact Nat.le_add_right _ _
      _ ≤ ∑ a ∈ Finset.range g.threads, allocatedBy LSClass.bytes a (p.allocLog a) :=
          Finset.sum_le_sum fun a ha ↦ allocatedBy_counted_le hs hw
            (hc.allocLog a (by have := Finset.mem_range.mp ha; omega))
  · have hzero (j : Nat) (hj : j ∈ Finset.range g.threads) :
        deallocatedBy LSClass.bytes j (p.deallocLog j) ≤
          allocatedBy LSClass.bytes j (p.allocLog j) := by
      have hlt := Finset.mem_range.mp hj
      have hle : deallocatedBy LSClass.bytes j (p.deallocLog j) ≤
          deallocatedBy (fun _ ↦ 0) j (p.deallocLog j) :=
        deallocatedBy_le fun t c d hm ↦ absurd ((hc.deallocLog j (by omega)).mem hm)
          (not_deallocated hw hs j t c d)
      rw [deallocatedBy_zero] at hle
      exact Nat.le_trans hle (Nat.zero_le _)
    exact Finset.sum_le_sum hzero

private theorem Sampling.deallocated_le (hs : Sampling g R (Counted g.toGOptions) s m (some p))
    (hr : p.reads = 2 * g.threads) :
    ∑ i ∈ Finset.range g.threads, deallocatedBy LSClass.bytes i (p.deallocLog i) ≤
      ∑ i ∈ Finset.range g.threads, allocatedBy LSClass.bytes i (p.allocLog i) := by
  generalize ho : some p = o at hs
  induction hs generalizing p with
  | start | quiet | leave => cases ho
  | enter _ _ hi =>
    cases ho
    exact absurd hr (by simp only [Sample.start]; omega)
  | other i _ _ _ _ _ ih => exact ih hr ho
  | @read s m q hs' hlt hP =>
    cases ho
    have hread := hs'.read hlt hP
    exact hread.covers.deallocated_le hread.sampled.reachable hP.apart hr

/-- A sample all of whose steps are counted stores the true amount: what it reads as
deallocated is at most what it reads as allocated. -/
theorem baseline_exact (hs : Sampling g R (Counted g.toGOptions) s m (some p))
    (hr : p.reads = 2 * g.threads) : TrueAmount g.threads p := by
  have hc := hs.covers
  have hle := hs.deallocated_le hr
  have hA := hc.allocated
  have hD := hc.deallocated
  have hF := hc.fits
  rw [show (p.reads + 1) / 2 = g.threads by omega] at hA hF
  rw [show p.reads / 2 = g.threads by omega] at hD
  generalize hAe : ∑ i ∈ Finset.range g.threads, allocatedBy LSClass.bytes i (p.allocLog i) = A
    at hle hA hF
  generalize hDe :
    ∑ i ∈ Finset.range g.threads, deallocatedBy LSClass.bytes i (p.deallocLog i) = D at hle hD
  have hA' : p.totalBytesAllocated.toNat = A := by
    rw [hA]
    exact UInt64.toNat_ofNat_of_lt' hF
  have hD' : p.totalBytesDeallocated.toNat = D := by
    rw [hD]
    exact UInt64.toNat_ofNat_of_lt' (Nat.lt_of_le_of_lt hle hF)
  have hle' : p.totalBytesDeallocated ≤ p.totalBytesAllocated := by
    rw [UInt64.le_iff_toNat_le, hA', hD']
    exact hle
  refine ⟨hle', ?_⟩
  have hv : ((p.totalBytesAllocated - p.totalBytesDeallocated) / 1024).toNat =
      (A - D) / 1024 := by
    rw [UInt64.toNat_div, UInt64.toNat_sub_of_le _ _ hle', hA', hD']
    rfl
  rw [hAe, hDe, Sample.currentRss, toInt_toInt64_of_lt (by omega), hv]
  omega

private theorem sampling_of_runs (hs : Reachable g.toGOptions R s) (h0 : (s.threads 0).runs = 0) :
    Sampling g R P s .start none := by
  induction hs with
  | start h => exact .start h
  | @step s s' i _ hi h ih =>
    obtain ⟨hquiet, hends⟩ := runs_of_step h
    by_cases hq : EndsQuantum i s s'
    · have hr := hends hq
      omega
    · exact .quiet i (ih ((hquiet hq).symm.trans h0)) hi h hq

private theorem Sampling.schedule {is : List Nat}
    (hs : Sampling g R (fun _ _ _ ↦ True) s m (some p)) (h0 : 0 ∉ is)
    (h : runSchedule g.toGOptions R is s = .ok s') :
    Sampling g R (fun _ _ _ ↦ True) s' m (some p) := by
  apply runSchedule_invariant g.toGOptions R hs _ h
  intro i hmem s s' hi hs ht
  have hne : i ≠ 0 := ne_of_mem_of_not_mem hmem h0
  exact .other i hs hne hi ht trivial

/-- Two threads with collections of 16 bytes that live for one tick. -/
def baselineOptions : GlobalOptions :=
  { sizedOptions with
    toGOptions := smallOptions 2 1 0
    doBaselineRss := 1 }

/-- Thread 0 is about to sample the memory after its first collection. -/
def AboutToSample (s : Sys Int32) : Prop :=
  (s.threads 0).runs = 0 ∧ (s.threads 0).pc = .accounting ∧
    baselineOptions.timeQuantum ≤
      (s.threads 0).timeCounter + (s.threads 0).sz * (s.threads 0).numObjects.toUInt64

instance (s : Sys Int32) : Decidable (AboutToSample s) :=
  inferInstanceAs (Decidable (_ ∧ _ ∧ _))

/-- Whether a schedule runs from `s` to its end, in a state with a given property. -/
def endsFrom (is : List Nat) (Q : Sys Int32 → Prop) [DecidablePred Q] (s : Sys Int32) : Bool :=
  match runSchedule baselineOptions.toGOptions (schrage baselineOptions.toGOptions) is s with
  | .ok s' => Q s'
  | .error _ => false

private theorem exists_of_endsFrom {is : List Nat} {Q : Sys Int32 → Prop} [DecidablePred Q]
    {s : Sys Int32} (h : endsFrom is Q s = true) :
    ∃ s', runSchedule baselineOptions.toGOptions (schrage baselineOptions.toGOptions) is s =
      .ok s' ∧ Q s' := by
  unfold endsFrom at h
  split at h
  · next s' hs => exact ⟨s', hs, of_decide_eq_true h⟩
  · cases h

private theorem enter_of_aboutToSample {P : Nat → Sys Int32 → Sample → Prop} {s : Sys Int32}
    (hs : Reachable baselineOptions.toGOptions (schrage baselineOptions.toGOptions) s)
    (ha : AboutToSample s) :
    Sampling baselineOptions (schrage baselineOptions.toGOptions) P s .start (some .start) := by
  obtain ⟨hr, hpc, hq⟩ := ha
  obtain ⟨s', hstep, hpc'⟩ : ∃ s', step baselineOptions.toGOptions
      (schrage baselineOptions.toGOptions) 0 s = .ok s' ∧ (s'.threads 0).pc = .removing := by
    simp only [step, hpc, account, if_pos hq]
    exact ⟨_, rfl, by simp⟩
  exact .enter (sampling_of_runs hs hr) rfl (by decide) hstep ⟨rfl, hpc, hpc'⟩

/-- Nobody runs while thread 0 reads the counters. -/
theorem baseline_exact_undisturbed :
    ∃ (s : Sys Int32) (m : MemStat) (p : Sample),
      Sampling baselineOptions (schrage baselineOptions.toGOptions)
        (Counted baselineOptions.toGOptions) s m (some p) ∧
      p.reads = 2 * baselineOptions.threads ∧ TrueAmount baselineOptions.threads p := by
  obtain ⟨s, hs, ha, hf⟩ := exists_of_endsIn baselineOptions.toGOptions
    (schrage baselineOptions.toGOptions) [0, 1, 0, 1, 0, 0]
    (fun s ↦ AboutToSample s ∧ ∑ a ∈ Finset.range baselineOptions.threads,
      allocatedBy LSClass.bytes a s.log < 2 ^ 64) (by decide +kernel) (by decide)
  have hP (p : Sample) : Counted baselineOptions.toGOptions 0 s p :=
    ⟨hs.slotsApart (by decide), hf, fun node hpc ↦ by rw [ha.2.1] at hpc; cases hpc⟩
  have h0 := enter_of_aboutToSample (P := Counted baselineOptions.toGOptions) hs ha
  have h1 := h0.read (show 0 < 4 by decide) (hP _)
  have h2 := h1.read (show 1 < 4 by decide) (hP _)
  have h3 := h2.read (show 2 < 4 by decide) (hP _)
  have h4 := h3.read (show 3 < 4 by decide) (hP _)
  exact ⟨s, _, _, h4, rfl, baseline_exact h4 rfl⟩

/-- The other thread allocates and deallocates two collections between the reads of its
counters. -/
theorem not_forall_baseline_exact :
    ¬ ∀ (g : GlobalOptions) (s : Sys Int32) (m : MemStat) (p : Sample),
      Sampling g (schrage g.toGOptions) (fun _ _ _ ↦ True) s m (some p) → 2 ≤ g.threads →
      1 ≤ g.maxTimeGap.toInt → p.reads = 2 * g.threads →
        p.totalBytesDeallocated ≤ p.totalBytesAllocated := by
  intro h
  obtain ⟨s, hs, ha, he⟩ := exists_of_endsIn baselineOptions.toGOptions
    (schrage baselineOptions.toGOptions) [0, 1, 0, 1, 0, 0]
    (fun s ↦ AboutToSample s ∧ endsFrom (List.replicate 14 1) (fun s' ↦
      (((Sample.start.read s).read s).read s |>.read s').totalBytesAllocated <
        (((Sample.start.read s).read s).read s |>.read s').totalBytesDeallocated) s = true)
    (by decide +kernel) (by decide)
  obtain ⟨s', hrun, hlt⟩ := exists_of_endsFrom he
  have h0 := enter_of_aboutToSample (P := fun _ _ _ ↦ True) hs ha
  have h1 := h0.read (show 0 < 4 by decide) trivial
  have h2 := h1.read (show 1 < 4 by decide) trivial
  have h3 := h2.read (show 2 < 4 by decide) trivial
  have h4 := (h3.schedule (by decide) hrun).read (show 3 < 4 by decide) trivial
  exact absurd (h baselineOptions s' _ _ h4 (by decide) (by decide) rfl) (UInt64.not_le.mpr hlt)

end Acdc
