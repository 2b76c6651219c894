import Acdc.Base.Histogram
import Acdc.History
import Mathlib.Data.UInt

/-!
# Aggregated histograms

The merge of the threads' statistics into those of thread 0 at the end of a run,
`src/acdc.c:702–746`. Times are left out. The loop over the lifetime histogram stops before
`max_liveness`, the last printed entry.
-/

namespace Acdc

variable {σ : Type}

/-- Addition of the statistics of one thread; the loop body of `src/acdc.c:704–731`. -/
def aggregateThread (g : GOptions) (m res : MStat) : MStat where
  bytesAllocated := m.bytesAllocated + res.bytesAllocated
  bytesDeallocated := m.bytesDeallocated + res.bytesDeallocated
  objectsAllocated := m.objectsAllocated + res.objectsAllocated
  objectsDeallocated := m.objectsDeallocated + res.objectsDeallocated
  ltHistogram := Histogram.merge g.life m.ltHistogram res.ltHistogram
  szHistogram := Histogram.merge g.maxObjectSc.toNatClampNeg m.szHistogram res.szHistogram

/-- The threads that are aggregated into thread 0. -/
def otherThreads (g : GOptions) : List Nat := List.range' 1 (g.threads - 1)

/-- The aggregated statistics in the context of thread 0. -/
def aggregate (g : GOptions) (s : Sys σ) : MStat :=
  (otherThreads g).foldl (fun m i ↦ aggregateThread g m (s.threads i).mc.stat)
    (s.threads 0).mc.stat

/-- Number of printed entries `LT_HISTO`, from 0 to `max_liveness`. -/
def GOptions.ltEntries (g : GOptions) : Nat := (g.maxLiveness.toInt + 1).toNat

/-- Number of printed entries `SZ_HISTO`, from 0 to `max_object_sc`. -/
def GOptions.szEntries (g : GOptions) : Nat := (g.maxObjectSc.toInt + 1).toNat

/-- All threads have left the main loop. -/
def Completed (g : GOptions) (s : Sys σ) : Prop :=
  ∀ i < g.threads, (s.threads i).pc = .looping ∧
    g.benchmarkDuration.toInt ≤ (s.threads i).runs

instance (g : GOptions) : DecidablePred (Completed (σ := σ) g) :=
  fun _ ↦ inferInstanceAs (Decidable (∀ _ < _, _))

/-- The printed entries are the totals over all threads and account for every object. -/
structure AccountsForAll (g : GOptions) (s : Sys σ) (m : MStat) : Prop where
  lt : ∀ j < g.ltEntries, m.ltHistogram.getD j 0 =
    ∑ i ∈ Finset.range g.threads, (s.threads i).mc.stat.ltHistogram.getD j 0
  sz : ∀ j < g.szEntries, m.szHistogram.getD j 0 =
    ∑ i ∈ Finset.range g.threads, (s.threads i).mc.stat.szHistogram.getD j 0
  ltSum : ∑ j ∈ Finset.range g.ltEntries, m.ltHistogram.getD j 0 = m.objectsAllocated
  szSum : ∑ j ∈ Finset.range g.szEntries, m.szHistogram.getD j 0 = m.objectsAllocated

/-- The histograms of one thread: one counter for each printed entry, none above the
greatest size-class, and both totals equal to the number of objects. -/
structure Histograms (g : GOptions) (m : MStat) : Prop where
  ltLength : m.ltHistogram.length = g.ltEntries
  szLength : m.szHistogram.length = g.szEntries
  szLast : m.szHistogram.getD g.maxObjectSc.toNatClampNeg 0 = 0
  ltSum : ∑ j ∈ Finset.range g.ltEntries, m.ltHistogram.getD j 0 = m.objectsAllocated
  szSum : ∑ j ∈ Finset.range g.szEntries, m.szHistogram.getD j 0 = m.objectsAllocated

variable {g : GOptions} {R : Generator σ} {s : Sys σ}

private theorem sum_range_threads {n : Nat} (hn : 1 ≤ n) (f : Nat → UInt64) :
    ∑ i ∈ Finset.range n, f i = f 0 + ((List.range' 1 (n - 1)).map f).sum := by
  obtain ⟨k, rfl⟩ := Nat.exists_eq_add_of_le' hn
  have hr : List.range (k + 1) = 0 :: List.range' 1 k := by
    rw [List.range_eq_range', List.range'_succ]
  have hs : ∑ i ∈ Finset.range (k + 1), f i = ((List.range (k + 1)).map f).sum := rfl
  rw [hs, hr, List.map_cons, List.sum_cons, Nat.add_sub_cancel]

/-- The size-class of an object that passes the size assertion is below the greatest. -/
theorem getSizeclass_lt {size : UInt64} (h0 : 0 < size)
    (h : size < bitZeroShl g.maxObjectSc) (hs : 0 ≤ g.maxObjectSc.toInt) :
    (getSizeclass size).toNat < g.maxObjectSc.toNatClampNeg := by
  rw [UInt64.lt_iff_toNat_lt, UInt64.toNat_zero] at h0
  rw [UInt64.lt_iff_toNat_lt, toNat_bitZeroShl hs] at h
  have hl := (Nat.log2_lt (by omega)).mpr h
  have hm := Nat.mod_lt g.maxObjectSc.toNatClampNeg (show 64 > 0 by decide)
  have hd := Nat.mod_le g.maxObjectSc.toNatClampNeg 64
  rw [getSizeclass, UInt32.toNat_ofNat_of_lt' (Nat.lt_trans (Nat.lt_trans hl hm) (by decide))]
  omega

private theorem entries_eq {x : Int32} (h : x.toInt + 1 < 2 ^ 31) :
    (x + 1).toNatClampNeg = (x.toInt + 1).toNat := by
  have hl := x.le_toInt
  have ho : (1 : Int32).toInt = 1 := rfl
  rw [Int32.toNatClampNeg, Int32.toInt_add, ho, Int.bmod_eq_of_le (by omega) (by omega)]

private theorem getD_replicate (n j : Nat) :
    (List.replicate n (0 : UInt64)).getD j 0 = 0 := by
  rw [List.getD_eq_getElem?_getD, List.getElem?_replicate]
  split <;> rfl

private theorem histograms_start (hd : Defined g) (i : Nat) :
    Histograms g ((runAcdc g R).threads i).mc.stat where
  ltLength := (List.length_replicate ..).trans (entries_eq hd.lifetimes)
  szLength := (List.length_replicate ..).trans (entries_eq hd.sizes)
  szLast := getD_replicate _ _
  ltSum := Finset.sum_eq_zero fun _ _ ↦ getD_replicate _ _
  szSum := Finset.sum_eq_zero fun _ _ ↦ getD_replicate _ _

private theorem Histograms.count {m : MStat} (h : Histograms g m) {p : ObjectProps}
    (hl : p.liveness.toNat < m.ltHistogram.length)
    (hz : (getSizeclass p.size).toNat < m.szHistogram.length)
    (h0 : 0 < p.size) (h1 : p.size < bitZeroShl g.maxObjectSc) : Histograms g (m.count p) where
  ltLength := (Histogram.length_raise ..).trans h.ltLength
  szLength := (Histogram.length_raise ..).trans h.szLength
  szLast := by
    have hpos : 0 ≤ g.maxObjectSc.toInt := by
      rw [h.szLength, GOptions.szEntries] at hz
      omega
    have hlt := getSizeclass_lt h0 h1 hpos
    change (Histogram.raise _ _ _).getD _ 0 = 0
    rw [Histogram.getD_raise hz, h.szLast, if_neg (by omega), add_zero]
  ltSum := by
    change ∑ j ∈ _, (Histogram.raise _ _ _).getD j 0 = m.objectsAllocated + p.numObjects.toUInt64
    rw [Histogram.sum_raise h.ltLength (h.ltLength ▸ hl), h.ltSum]
  szSum := by
    change ∑ j ∈ _, (Histogram.raise _ _ _).getD j 0 = m.objectsAllocated + p.numObjects.toUInt64
    rw [Histogram.sum_raise h.szLength (h.szLength ▸ hz), h.szSum]

/-- The histograms of every thread. -/
theorem Reachable.histograms (hs : Reachable g R s) (i : Nat) :
    Histograms g (s.threads i).mc.stat := by
  induction hs with
  | start hd => exact histograms_start hd i
  | step j hs hj hst ih =>
    have hm := step_move hst
    have hm' := hm
    cases hm with
    | create p₀ p rand c cache k hpc hr hp he hl hz hb =>
      by_cases hij : i = j
      · subst hij
        simpa using ih.count hl hz hb.size_pos hb.size_lt
      · simpa [Function.update_of_ne hij] using ih
    | deallocate node hpc hk =>
      by_cases hij : i = j
      · subst hij
        obtain ⟨h0, h1, h2, h3, h4⟩ := ih
        constructor <;> simpa [MStat.uncount]
      · simpa [Function.update_of_ne hij] using ih
    | _ =>
      rw [(hm'.quiet (by simp [*]) (by simp [*])).stat]
      exact ih

/-! ### The merge -/

section Merge

variable (g) (is : List Nat) (f : Nat → MStat) (m : MStat)

private theorem ltHistogram_foldl :
    (is.foldl (fun m i ↦ aggregateThread g m (f i)) m).ltHistogram =
      is.foldl (fun h i ↦ Histogram.merge g.life h (f i).ltHistogram) m.ltHistogram := by
  induction is generalizing m with
  | nil => rfl
  | cons i is ih => exact ih _

private theorem szHistogram_foldl :
    (is.foldl (fun m i ↦ aggregateThread g m (f i)) m).szHistogram =
      is.foldl (fun h i ↦ Histogram.merge g.maxObjectSc.toNatClampNeg h (f i).szHistogram)
        m.szHistogram := by
  induction is generalizing m with
  | nil => rfl
  | cons i is ih => exact ih _

private theorem objectsAllocated_foldl :
    (is.foldl (fun m i ↦ aggregateThread g m (f i)) m).objectsAllocated =
      m.objectsAllocated + (is.map fun i ↦ (f i).objectsAllocated).sum := by
  induction is generalizing m with
  | nil => exact (add_zero _).symm
  | cons i is ih =>
    rw [List.foldl_cons, ih, List.map_cons, List.sum_cons, ← add_assoc]
    rfl

end Merge

section Aggregate

variable (hs : Reachable g R s)
include hs

private theorem lt_aggregate (j : Nat) :
    (aggregate g s).ltHistogram.getD j 0 = (s.threads 0).mc.stat.ltHistogram.getD j 0 +
      if j < g.life then
        ((otherThreads g).map fun i ↦ (s.threads i).mc.stat.ltHistogram.getD j 0).sum
      else 0 := by
  have hb : g.life ≤ (s.threads 0).mc.stat.ltHistogram.length := by
    rw [(hs.histograms 0).ltLength, GOptions.ltEntries, GOptions.life, Int32.toNatClampNeg]
    omega
  rw [aggregate, ltHistogram_foldl, Histogram.getD_foldl_merge hb]

private theorem sz_aggregate (j : Nat) :
    (aggregate g s).szHistogram.getD j 0 = (s.threads 0).mc.stat.szHistogram.getD j 0 +
      if j < g.maxObjectSc.toNatClampNeg then
        ((otherThreads g).map fun i ↦ (s.threads i).mc.stat.szHistogram.getD j 0).sum
      else 0 := by
  have hb : g.maxObjectSc.toNatClampNeg ≤ (s.threads 0).mc.stat.szHistogram.length := by
    rw [(hs.histograms 0).szLength, GOptions.szEntries, Int32.toNatClampNeg]
    omega
  rw [aggregate, szHistogram_foldl, Histogram.getD_foldl_merge hb]

variable (hn : 1 ≤ g.threads)
include hn

omit hs in
private theorem objectsAllocated_aggregate : (aggregate g s).objectsAllocated =
    ∑ i ∈ Finset.range g.threads, (s.threads i).mc.stat.objectsAllocated := by
  rw [aggregate, objectsAllocated_foldl, sum_range_threads hn]
  rfl

private theorem sz_total {j : Nat} (hj : j < g.szEntries) :
    (aggregate g s).szHistogram.getD j 0 =
      ∑ i ∈ Finset.range g.threads, (s.threads i).mc.stat.szHistogram.getD j 0 := by
  rw [sz_aggregate hs, sum_range_threads hn, otherThreads]
  split
  · rfl
  · next hlt =>
    have he : j = g.maxObjectSc.toNatClampNeg := by
      rw [GOptions.szEntries] at hj
      rw [Int32.toNatClampNeg] at hlt ⊢
      omega
    subst he
    have hz : ((List.range' 1 (g.threads - 1)).map fun i ↦
        (s.threads i).mc.stat.szHistogram.getD g.maxObjectSc.toNatClampNeg 0).sum = 0 := by
      rw [funext fun i ↦ (hs.histograms i).szLast]
      simp
    rw [hz]

/-- The aggregated histograms account for every object exactly if the entries
`max_liveness` of all threads but the first, which the loop leaves out, add up to zero. -/
theorem aggregate_accountsForAll_iff :
    AccountsForAll g s (aggregate g s) ↔
      ((otherThreads g).map fun i ↦
        (s.threads i).mc.stat.ltHistogram.getD g.life 0).sum = 0 := by
  constructor
  · intro h
    by_cases hM : 0 ≤ g.maxLiveness.toInt
    · have hj : g.life < g.ltEntries := by
        rw [GOptions.ltEntries, GOptions.life, Int32.toNatClampNeg]
        omega
      have hl := h.lt g.life hj
      rw [lt_aggregate hs, if_neg (Nat.lt_irrefl _), sum_range_threads hn] at hl
      exact (add_left_cancel hl).symm
    · -- there is no entry at all
      have hz (i : Nat) : (s.threads i).mc.stat.ltHistogram = [] := by
        rw [← List.length_eq_zero_iff, (hs.histograms i).ltLength, GOptions.ltEntries]
        omega
      simp [hz]
  · intro hz
    have hlt (j : Nat) (hj : j < g.ltEntries) : (aggregate g s).ltHistogram.getD j 0 =
        ∑ i ∈ Finset.range g.threads, (s.threads i).mc.stat.ltHistogram.getD j 0 := by
      rw [lt_aggregate hs, sum_range_threads hn]
      split
      · rfl
      · next hlt =>
        have he : j = g.life := by
          rw [GOptions.ltEntries] at hj
          rw [GOptions.life, Int32.toNatClampNeg] at hlt ⊢
          omega
        subst he
        exact congrArg _ hz.symm
    have ho := objectsAllocated_aggregate (s := s) hn
    refine ⟨hlt, fun j ↦ sz_total hs hn, ?_, ?_⟩
    · rw [Finset.sum_congr rfl fun j hj ↦ hlt j (Finset.mem_range.mp hj), Finset.sum_comm, ho]
      exact Finset.sum_congr rfl fun i _ ↦ (hs.histograms i).ltSum
    · rw [Finset.sum_congr rfl fun j hj ↦ sz_total hs hn (Finset.mem_range.mp hj),
        Finset.sum_comm, ho]
      exact Finset.sum_congr rfl fun i _ ↦ (hs.histograms i).szSum

end Aggregate

/-- Options of two threads that build one collection of one lifetime each. -/
def oneQuantum (minLiveness maxLiveness : Int32) : GOptions :=
  { smallOptions 2 maxLiveness 0 with benchmarkDuration := 1, minLiveness := minLiveness }

-- The schedule in which both threads leave the barrier and run for `k` steps each.
private def bothRun (k : Nat) : List Nat :=
  [0, 1, 0, 1] ++ List.replicate k 0 ++ List.replicate k 1

/-- Two threads that build collections of less than the greatest liveness. -/
theorem aggregate_accountsForAll_iff_one_quantum :
    ∃ s, Reachable (oneQuantum 1 2) (schrage (oneQuantum 1 2)) s ∧ Completed (oneQuantum 1 2) s ∧
      AccountsForAll (oneQuantum 1 2) s (aggregate (oneQuantum 1 2) s) := by
  obtain ⟨s, hs, hc, hz⟩ := exists_of_endsIn (oneQuantum 1 2) (schrage (oneQuantum 1 2))
    (bothRun 7) (fun s ↦ Completed (oneQuantum 1 2) s ∧
      ((otherThreads (oneQuantum 1 2)).map fun i ↦
        (s.threads i).mc.stat.ltHistogram.getD (oneQuantum 1 2).life 0).sum = 0)
    (by decide +kernel) (by decide)
  exact ⟨s, hs, hc, (aggregate_accountsForAll_iff hs (by decide)).mpr hz⟩

/-- Two threads, one lifetime: the collection of the second thread is not in the output. -/
theorem not_forall_aggregate_accountsForAll :
    ¬ ∀ (g : GOptions) (s : Sys Int32), 1 ≤ g.threads → Reachable g (schrage g) s →
      Completed g s → AccountsForAll g s (aggregate g s) := by
  intro h
  obtain ⟨s, hs, hc, hne⟩ := exists_of_endsIn (oneQuantum 1 1) (schrage (oneQuantum 1 1))
    (bothRun 7) (fun s ↦ Completed (oneQuantum 1 1) s ∧
      (aggregate (oneQuantum 1 1) s).ltHistogram.getD 1 0 ≠
        ∑ i ∈ Finset.range 2, (s.threads i).mc.stat.ltHistogram.getD 1 0)
    (by decide +kernel) (by decide)
  exact hne ((h _ s (by decide) hs hc).lt 1 (by decide))

end Acdc
