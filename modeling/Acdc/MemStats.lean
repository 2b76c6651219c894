import Acdc.Base.Truncation
import Acdc.Histograms
import Acdc.Params
import Mathlib.Algebra.Order.BigOperators.Group.List

/-!
# Memory samples

`get_and_print_memstats`, `src/acdc.c:239–285`, which thread 0 calls at the end of each of its
quanta before its clock advances, and the average that `run_acdc` reports at the end,
`src/acdc.c:772–787`. The divisor of the average is computed from options, the number of samples
is not counted. How a sample is taken is left open: it may be any `long`. The counter of the
samples is a `long` too, and undefined from an overflow on. The reports are printed in lines whose
other columns are left out.
-/

namespace Acdc

variable {σ : Type}

/-- A number fits a `long`. -/
def FitsLong (x : Int) : Prop := -2 ^ 63 ≤ x ∧ x < 2 ^ 63

instance (x : Int) : Decidable (FitsLong x) := inferInstanceAs (Decidable (_ ∧ _))

/-- The `long` with a given value. An operation that overflows has no defined result. -/
def longResult (x : Int) : Except Stop Int64 :=
  if FitsLong x then .ok (.ofInt x) else .error .undefined

/-- A line that a sample prints. -/
inductive SampleLine where
  | faulty (rss : Int64)
  | memstats (time : UInt32) (rss : UInt64)
  deriving DecidableEq, Repr

/-- The memory fields of the statistics of thread 0, with its output. `counted` lists the
samples that have been added to the counter; no function reads it. -/
structure MemStat where
  currentRss : Int64
  residentSetSizeCounter : Except Stop Int64
  counted : List Int64
  lines : List SampleLine
  deriving DecidableEq, Repr

/-- The statistics at the start; `src/acdc.c:195`. -/
def MemStat.start : MemStat := ⟨0, .ok 0, [], []⟩

/-- End of the warm-up. -/
def GOptions.warmup (g : GOptions) : Int32 := 2 * g.maxLiveness

/-- Whether a sample is smaller than the metadata heap; an `unsigned long` comparison. -/
def isFaulty (g : GlobalOptions) (rss : Int64) : Bool := rss.toUInt64 < g.metadataHeapSz

/-- One sample; `src/acdc.c:239–285`. -/
def getAndPrintMemstats (g : GlobalOptions) (time : UInt32) (rss : Int64) (m : MemStat) :
    MemStat :=
  let m := { m with currentRss := rss }
  let m := if g.warmup.toUInt32 ≤ time then
      { m with
        residentSetSizeCounter := do
          let counter ← m.residentSetSizeCounter
          longResult (counter.toInt + m.currentRss.toInt)
        counted := m.counted ++ [m.currentRss] }
    else m
  if isFaulty g m.currentRss then { m with lines := m.lines ++ [.faulty m.currentRss] }
  else if g.verbosity = 0 then m
  else
    let line := .memstats time (m.currentRss.toUInt64 - g.metadataHeapSz * 1024)
    { m with lines := m.lines ++ [line] }

/-- The divisor of the average. -/
def GOptions.samples (g : GOptions) : Int32 := g.benchmarkDuration - 2 * g.maxLiveness

/-- The average before the metadata heap is excluded; `src/acdc.c:773–774`. -/
def meanRss (g : GlobalOptions) (m : MemStat) : Except Stop Int64 := do
  let counter ← m.residentSetSizeCounter
  if g.samples = 0 then .error .undefined
  else return counter / g.samples.toInt64

/-- The average that is printed; `src/acdc.c:772–778`. -/
def avgRss (g : GlobalOptions) (m : MemStat) : Except Stop UInt64 := do
  let q ← meanRss g m
  if g.doBaselineRss = 0 then return q.toUInt64 - g.metadataHeapSz * 1024
  else return q.toUInt64

/-- Thread 0 ends a quantum. -/
def EndsQuantum (i : Nat) (s s' : Sys σ) : Prop :=
  i = 0 ∧ (s.threads 0).pc = .accounting ∧ (s'.threads 0).pc = .removing

/-- Runs in which thread 0 takes a sample at the end of each of its quanta. -/
inductive Sampled (g : GlobalOptions) (R : Generator σ) : Sys σ → MemStat → Prop where
  | start (h : Defined g.toGOptions) : Sampled g R (runAcdc g.toGOptions R) .start
  | quiet {s s' : Sys σ} {m : MemStat} (i : Nat) (hs : Sampled g R s m) (hi : i < g.threads)
      (h : step g.toGOptions R i s = .ok s') (hq : ¬ EndsQuantum i s s') : Sampled g R s' m
  | sample {s s' : Sys σ} {m : MemStat} (rss : Int64) (hs : Sampled g R s m)
      (hi : 0 < g.threads) (h : step g.toGOptions R 0 s = .ok s') (hq : EndsQuantum 0 s s') :
      Sampled g R s' (getAndPrintMemstats g (s.threads 0).mc.time rss m)

variable {g : GlobalOptions} {R : Generator σ} {s : Sys σ} {m : MemStat}

/-- A sampled run is a run. -/
theorem Sampled.reachable (hs : Sampled g R s m) : Reachable g.toGOptions R s := by
  induction hs with
  | start h => exact .start h
  | quiet i _ hi h _ ih => exact .step i ih hi h
  | sample _ _ hi h _ ih => exact .step 0 ih hi h

/-! ### What a sample adds -/

/-- The values that are printed from the end of the warm-up on, read as signed numbers. -/
def reported (g : GlobalOptions) (m : MemStat) : List Int64 :=
  m.lines.filterMap fun
    | .faulty _ => none
    | .memstats time rss => if g.warmup.toUInt32 ≤ time then some rss.toInt64 else none

/-- Total of the counted samples. -/
def MemStat.total (m : MemStat) : Int := (m.counted.map Int64.toInt).sum

/-- No sum of the first of these numbers overflows a `long`. -/
def SumsFit (xs : List Int) : Prop := ∀ k, FitsLong (xs.take k).sum

/-- The counter and the printed lines as functions of the counted samples. -/
structure Records (g : GlobalOptions) (m : MemStat) : Prop where
  counter : ∀ c, m.residentSetSizeCounter = .ok c ↔
    SumsFit (m.counted.map Int64.toInt) ∧ c.toInt = m.total
  reported : g.verbosity ≠ 0 → reported g m = (m.counted.filter (!isFaulty g ·)).map fun rss ↦
    rss - (g.metadataHeapSz * 1024).toInt64

theorem longResult_eq_ok_iff {x : Int} {c : Int64} :
    longResult x = .ok c ↔ FitsLong x ∧ c.toInt = x := by
  unfold longResult
  split
  · next h =>
    have hx : (Int64.ofInt x).toInt = x := Int64.toInt_ofInt_of_le h.1 h.2
    constructor
    · intro he
      obtain rfl := Except.ok.inj he
      exact ⟨h, hx⟩
    · intro ⟨_, hc⟩
      rw [Int64.toInt_inj.mp (hx.trans hc.symm)]
  · next h =>
    constructor
    · nofun
    · intro ⟨hf, _⟩
      exact absurd hf h

theorem SumsFit.sum {xs : List Int} (h : SumsFit xs) : FitsLong xs.sum := by
  have hall := h xs.length
  rwa [List.take_length] at hall

theorem sumsFit_nil : SumsFit [] := by
  intro k
  rw [List.take_nil]
  decide

theorem sumsFit_concat {xs : List Int} {x : Int} :
    SumsFit (xs ++ [x]) ↔ SumsFit xs ∧ FitsLong (xs.sum + x) := by
  constructor
  · intro h
    constructor
    · intro k
      have hk := h (min k xs.length)
      rwa [List.take_append_of_le_length (Nat.min_le_right _ _), ← List.take_take,
        List.take_length] at hk
    · have hall := h.sum
      rwa [List.sum_append, List.sum_singleton] at hall
  · intro ⟨h, hx⟩ k
    obtain hk | hk := Nat.lt_or_ge xs.length k
    · rw [List.take_of_length_le (by simpa using hk), List.sum_append, List.sum_singleton]
      exact hx
    · rw [List.take_append_of_le_length hk]
      exact h k

/-- Of samples that are not negative, as all real ones, only the total has to fit. -/
theorem sumsFit_iff_of_nonneg {xs : List Int} (h : ∀ x ∈ xs, 0 ≤ x) :
    SumsFit xs ↔ FitsLong xs.sum := by
  constructor
  · exact SumsFit.sum
  · intro hf k
    have hsplit := List.sum_take_add_sum_drop xs k
    have htake : 0 ≤ (xs.take k).sum := List.sum_nonneg fun x hx ↦ h x (List.mem_of_mem_take hx)
    have hdrop : 0 ≤ (xs.drop k).sum := List.sum_nonneg fun x hx ↦ h x (List.mem_of_mem_drop hx)
    have hlt := hf.2
    constructor <;> omega

private theorem counted_of_lt {time : UInt32} (h : ¬ g.warmup.toUInt32 ≤ time) (rss : Int64) :
    (getAndPrintMemstats g time rss m).counted = m.counted ∧
      (getAndPrintMemstats g time rss m).residentSetSizeCounter = m.residentSetSizeCounter ∧
      reported g (getAndPrintMemstats g time rss m) = reported g m := by
  simp only [getAndPrintMemstats, if_neg h, reported]
  split
  · simp
  · split
    · simp
    · simp [h]

private theorem counted_of_le {time : UInt32} (h : g.warmup.toUInt32 ≤ time) (rss : Int64) :
    (getAndPrintMemstats g time rss m).counted = m.counted ++ [rss] ∧
      (getAndPrintMemstats g time rss m).residentSetSizeCounter =
        (m.residentSetSizeCounter >>= fun c ↦ longResult (c.toInt + rss.toInt)) ∧
      (g.verbosity ≠ 0 → reported g (getAndPrintMemstats g time rss m) = reported g m ++
        if isFaulty g rss then [] else [rss - (g.metadataHeapSz * 1024).toInt64]) := by
  have hsub : (rss.toUInt64 - g.metadataHeapSz * 1024).toInt64 =
      rss - (g.metadataHeapSz * 1024).toInt64 := by
    rw [UInt64.toInt64_sub, Int64.toInt64_toUInt64]
  simp only [getAndPrintMemstats, if_pos h, reported]
  split
  · simp
  · split
    · next hv => simp [hv]
    · simp [h, hsub]

private theorem Records.exists_counter (hm : Records g m)
    (hfit : SumsFit (m.counted.map Int64.toInt)) :
    ∃ c, m.residentSetSizeCounter = .ok c ∧ c.toInt = m.total := by
  have hval : (Int64.ofInt m.total).toInt = m.total :=
    Int64.toInt_ofInt_of_le hfit.sum.1 hfit.sum.2
  exact ⟨_, (hm.counter _).mpr ⟨hfit, hval⟩, hval⟩

private theorem Records.sample (hm : Records g m) (time : UInt32) (rss : Int64) :
    Records g (getAndPrintMemstats g time rss m) := by
  by_cases h : g.warmup.toUInt32 ≤ time
  · obtain ⟨hc, hs, hr⟩ := counted_of_le (m := m) h rss
    constructor
    · intro c
      rw [hc, hs, MemStat.total, hc, List.map_append, List.map_singleton, sumsFit_concat,
        List.sum_append, List.sum_singleton]
      constructor
      · intro h
        obtain ⟨c₀, h₀, h⟩ := bind_eq_ok h
        obtain ⟨hfit, htotal⟩ := (hm.counter c₀).mp h₀
        rw [htotal] at h
        obtain ⟨hf, hv⟩ := longResult_eq_ok_iff.mp h
        exact ⟨⟨hfit, hf⟩, hv⟩
      · intro ⟨⟨hfit, hf⟩, hv⟩
        obtain ⟨c₀, h₀, htotal⟩ := hm.exists_counter hfit
        rw [h₀]
        apply longResult_eq_ok_iff.mpr
        rw [htotal]
        exact ⟨hf, hv⟩
    · intro hv
      rw [hr hv, hc, hm.reported hv, List.filter_append, List.map_append]
      cases hf : isFaulty g rss <;> simp [hf]
  · obtain ⟨hc, hs, hr⟩ := counted_of_lt (m := m) h rss
    constructor
    · rw [hs, MemStat.total, hc]
      exact hm.counter
    · intro hv
      rw [hr, hc, hm.reported hv]

theorem Sampled.records (hs : Sampled g R s m) : Records g m := by
  induction hs with
  | start =>
    constructor
    · intro c
      change Except.ok 0 = .ok c ↔ SumsFit [] ∧ c.toInt = 0
      rw [and_iff_right sumsFit_nil, Except.ok.injEq, eq_comm]
      exact Int64.toInt_inj.symm
    · exact fun _ ↦ rfl
  | quiet _ _ _ _ _ ih => exact ih
  | sample rss _ _ _ _ ih => exact ih.sample _ rss

/-- Every reachable state is that of a sampled run, whatever the samples. -/
theorem Reachable.sampled (hs : Reachable g.toGOptions R s) (rss : Int64) :
    ∃ m, Sampled g R s m ∧ ∀ x ∈ m.counted, x = rss := by
  induction hs with
  | start h => exact ⟨_, .start h, nofun⟩
  | @step s s' i _ hi h ih =>
    obtain ⟨m, hm, hx⟩ := ih
    by_cases hq : EndsQuantum i s s'
    · obtain rfl := hq.1
      refine ⟨_, .sample rss hm hi h hq, fun x hmem ↦ ?_⟩
      by_cases hw : g.warmup.toUInt32 ≤ (s.threads 0).mc.time
      · rw [(counted_of_le hw rss).1, List.mem_append, List.mem_singleton] at hmem
        exact hmem.elim (hx x) id
      · rw [(counted_of_lt hw rss).1] at hmem
        exact hx x hmem
    · exact ⟨m, .quiet i hm hi h hq, hx⟩

/-! ### The number of samples -/

/-- Only the end of a quantum of thread 0 completes one. -/
theorem runs_of_step {i : Nat} {s' : Sys σ} (h : step g.toGOptions R i s = .ok s') :
    (¬ EndsQuantum i s s' → (s'.threads 0).runs = (s.threads 0).runs) ∧
      (EndsQuantum i s s' → (s'.threads 0).runs = (s.threads 0).runs + 1) := by
  have hm := step_move h
  by_cases hi : i = 0
  · subst hi
    unfold EndsQuantum
    cases hm with
    | tick hpc => simp [hpc]
    | _ => simp [*]
  · rw [hm.threads_of_ne (Ne.symm hi)]
    exact ⟨fun _ ↦ rfl, fun hq ↦ absurd hq.1 hi⟩

private theorem toNat_warmup (hM : 0 ≤ g.maxLiveness.toInt) :
    g.warmup.toUInt32.toNat = 2 * g.life := by
  have hlt := g.life_lt
  have hu : g.maxLiveness.toUInt32.toNat = g.life := by
    rw [Int32.toNat_toUInt32_of_le (Int32.le_iff_toInt_le.mpr hM)]
    rfl
  rw [GOptions.warmup, Int32.toUInt32_mul, UInt32.toNat_mul, hu]
  exact Nat.mod_eq_of_lt (show 2 * g.life < 2 ^ 32 by omega)

/-- The samples of the clocks from the end of the warm-up on are counted. -/
theorem Sampled.length_counted (hs : Sampled g R s m) (hM : 0 ≤ g.maxLiveness.toInt) :
    m.counted.length = (s.threads 0).runs - 2 * g.life := by
  induction hs with
  | start => exact (Nat.zero_sub _).symm
  | quiet i _ hi h hq ih => rw [(runs_of_step h).1 hq, ih]
  | @sample s s' m rss hs hi h hq ih =>
    have hc := (hs.reachable.local 0).clock
    have hle : g.warmup.toUInt32 ≤ (s.threads 0).mc.time ↔ 2 * g.life ≤ (s.threads 0).runs := by
      rw [UInt32.le_iff_toNat_le, toNat_warmup hM, hc]
    rw [(runs_of_step h).2 hq]
    by_cases hw : g.warmup.toUInt32 ≤ (s.threads 0).mc.time
    · rw [(counted_of_le hw rss).1, List.length_append, ih, List.length_singleton]
      have := hle.mp hw
      omega
    · rw [(counted_of_lt hw rss).1, ih]
      have := mt hle.mpr hw
      omega

private theorem inQuantum_eq_false (hs : Reachable g.toGOptions R s)
    (hM : g.maxLiveness.toInt < 0) (i : Nat) : (s.threads i).pc.inQuantum = false := by
  induction hs with
  | start => rfl
  | @step s s' j hs hj h ih =>
    have hm := step_move h
    by_cases hij : i = j
    · subst hij
      have hlen : (s.threads i).mc.stat.ltHistogram.length = 0 := by
        rw [(hs.histograms i).ltLength, GOptions.ltEntries]
        omega
      cases hm with
      | create p₀ p rand c cache k hpc hr hp he hl =>
        rw [hlen] at hl
        exact absurd hl (Nat.not_lt_zero _)
      | unreference node rest hpc hn =>
        simp only [Sys.emit_threads, Sys.put_threads, Function.update_self]
        split <;> rfl
      | endRemove pc hpc hn he =>
        obtain rfl | rfl := he <;> simp [Pc.inQuantum]
      | insert _ _ _ _ _ hpc | select _ _ _ _ hpc | share _ _ _ _ _ _ hpc | fetch _ hpc
      | traverse _ _ _ hpc | nextLClass _ hpc | endAccess _ hpc =>
        rw [hpc] at ih
        cases ih
      | arrive | depart | tick | resume | deallocate | recycle => simp [Pc.inQuantum]
    · rw [hm.threads_of_ne hij]
      exact ih

private theorem Sampled.counted_of_neg (hs : Sampled g R s m) (hM : g.maxLiveness.toInt < 0) :
    m.counted = [] := by
  induction hs with
  | start => rfl
  | quiet _ _ _ _ _ ih => exact ih
  | sample rss hs _ _ hq _ =>
    have hf := inQuantum_eq_false hs.reachable hM 0
    rw [hq.2.1] at hf
    cases hf

/-! ### The average -/

/-- The average is the truncated mean of the counted samples. -/
structure Averages (g : GlobalOptions) (m : MemStat) : Prop where
  samples_ne_zero : g.samples ≠ 0
  samples_eq : g.samples.toInt = m.counted.length
  mean : ∃ q, meanRss g m = .ok q ∧ q.toInt = m.total.tdiv m.counted.length

private theorem samples_eq_length (hs : Sampled g R s m) (hc : Completed g.toGOptions s)
    (hn : 0 < g.threads) (hM : 0 ≤ g.maxLiveness.toInt)
    (hd : 2 * g.maxLiveness.toInt < g.benchmarkDuration.toInt) :
    g.samples.toInt = m.counted.length ∧ 0 < m.counted.length := by
  have hl := hs.length_counted hM
  have hr := (hs.reachable.local 0).runs_le
  have hr' := (hc 0 hn).2
  have hlt := g.benchmarkDuration.toInt_lt
  have htwo : (2 : Int32).toInt = 2 := rfl
  have he : g.samples.toInt = g.benchmarkDuration.toInt - 2 * g.maxLiveness.toInt := by
    rw [GOptions.samples, Int32.toInt_sub, Int32.toInt_mul, htwo,
      Int.bmod_eq_of_le (n := 2 * g.maxLiveness.toInt) (by omega) (by omega),
      Int.bmod_eq_of_le (by omega) (by omega)]
  simp only [GOptions.duration, GOptions.life, Int32.toNatClampNeg] at hr hl
  omega

private theorem meanRss_eq_ok (hm : Records g m) (hs : g.samples.toInt = m.counted.length)
    (hpos : 0 < m.counted.length) (hfit : SumsFit (m.counted.map Int64.toInt)) :
    ∃ q, meanRss g m = .ok q ∧ q.toInt = m.total.tdiv m.counted.length := by
  have hz : g.samples ≠ 0 := by
    intro h
    rw [h, show (0 : Int32).toInt = 0 from rfl] at hs
    omega
  obtain ⟨c, hc, hval⟩ := hm.exists_counter hfit
  refine ⟨c / g.samples.toInt64, ?_, ?_⟩
  · simp only [meanRss, hc, if_neg hz, bind, Except.bind, pure, Except.pure]
  · have hlo := c.le_toInt
    have hhi := c.toInt_lt
    have hb := Truncation.tdiv_bounds c.toInt (Int.natCast_nonneg m.counted.length)
    rw [Int64.toInt_div, Int32.toInt_toInt64, hs, Int.bmod_eq_of_le (by omega) (by omega), hval]

/-- The average of a run is the truncated mean of the counted samples, by a divisor that is
not zero, exactly if the run is longer than the warm-up and the sums of the samples fit the
counter. -/
theorem averages_iff (hs : Sampled g R s m) (hc : Completed g.toGOptions s)
    (hn : 0 < g.threads) (hd : 1 ≤ g.benchmarkDuration.toInt) (hM : 1 ≤ g.maxLiveness.toInt) :
    Averages g m ↔
      2 * g.maxLiveness.toInt < g.benchmarkDuration.toInt ∧
        SumsFit (m.counted.map Int64.toInt) := by
  by_cases hw : 2 * g.maxLiveness.toInt < g.benchmarkDuration.toInt
  · obtain ⟨hlen, hpos⟩ := samples_eq_length hs hc hn (by omega) hw
    constructor
    · intro ⟨_, _, q, hq, _⟩
      obtain ⟨c, hc, -⟩ := bind_eq_ok hq
      exact ⟨hw, ((hs.records.counter c).mp hc).1⟩
    · intro h
      refine ⟨fun hs ↦ ?_, hlen, meanRss_eq_ok hs.records hlen hpos h.2⟩
      rw [hs, show (0 : Int32).toInt = 0 from rfl] at hlen
      omega
  · have hl := hs.length_counted (show 0 ≤ g.maxLiveness.toInt by omega)
    have hr := (hs.reachable.local 0).runs_le
    simp only [GOptions.duration, GOptions.life, Int32.toNatClampNeg] at hr hl
    constructor
    · intro h
      obtain ⟨hne, heq, -⟩ := h
      refine absurd (Int32.toInt_inj.mp ?_) hne
      rw [heq, show (0 : Int32).toInt = 0 from rfl]
      omega
    · exact fun h ↦ absurd h.1 hw

/-- Options of small sampled runs of one thread. -/
def sampledOptions (benchmarkDuration doBaselineRss : Int32) : GlobalOptions :=
  { sizedOptions with
    toGOptions := { smallOptions 1 1 0 with benchmarkDuration := benchmarkDuration }
    verbosity := 1
    doBaselineRss := doBaselineRss }

private theorem exists_three_quanta (b : Int32) :
    ∃ (s : Sys Int32) (m : MemStat),
      Sampled (sampledOptions 3 b) (schrage (sampledOptions 3 b).toGOptions) s m ∧
      Completed (sampledOptions 3 b).toGOptions s ∧ m.counted = [2000] := by
  obtain ⟨s, hs, hc⟩ := exists_of_endsIn (sampledOptions 3 0).toGOptions
    (schrage (sampledOptions 3 0).toGOptions) (List.replicate 23 0)
    (Completed (sampledOptions 3 0).toGOptions) (by decide +kernel) (by decide)
  obtain ⟨m, hm, hx⟩ := Reachable.sampled (g := sampledOptions 3 b) hs 2000
  have hl := hm.length_counted (show 0 ≤ (1 : Int32).toInt by decide)
  have hr := (hs.local 0).runs_le
  have hr' := (hc 0 (by decide)).2
  have hd : (sampledOptions 3 0).duration = 3 := rfl
  have hd' : (sampledOptions 3 0).benchmarkDuration.toInt = 3 := rfl
  have hlife : (sampledOptions 3 b).life = 1 := rfl
  have he : m.counted = List.replicate 1 2000 := List.eq_replicate_iff.mpr ⟨by omega, hx⟩
  exact ⟨s, m, hm, hc, he⟩

/-- A run with one counted sample. -/
theorem averages_iff_three_quanta :
    let g := sampledOptions 3 0
    ∃ (s : Sys Int32) (m : MemStat), Sampled g (schrage g.toGOptions) s m ∧
      Completed g.toGOptions s ∧ (Averages g m ↔
        2 * g.maxLiveness.toInt < g.benchmarkDuration.toInt ∧
          SumsFit (m.counted.map Int64.toInt)) := by
  obtain ⟨s, m, hm, hc, -⟩ := exists_three_quanta 0
  exact ⟨s, m, hm, hc, averages_iff hm hc (by decide) (by decide) (by decide)⟩

/-- A run that is as long as its warm-up divides by zero. -/
theorem not_forall_averages :
    ¬ ∀ (g : GlobalOptions) (s : Sys Int32) (m : MemStat),
      Sampled g (schrage g.toGOptions) s m → Completed g.toGOptions s → 0 < g.threads →
      1 ≤ g.benchmarkDuration.toInt → 1 ≤ g.maxLiveness.toInt → Averages g m := by
  intro h
  obtain ⟨s, hs, hc⟩ := exists_of_endsIn (sampledOptions 2 0).toGOptions
    (schrage (sampledOptions 2 0).toGOptions) (List.replicate 16 0)
    (Completed (sampledOptions 2 0).toGOptions) (by decide +kernel) (by decide)
  obtain ⟨m, hm, -⟩ := Reachable.sampled (g := sampledOptions 2 0) hs 2000
  have ha := h (sampledOptions 2 0) s m hm hc (by decide) (by decide) (by decide)
  exact ha.samples_ne_zero (by decide)

/-! ### The two reports -/

/-- The counted samples whose value is printed. -/
def valid (g : GlobalOptions) (m : MemStat) : List Int64 := m.counted.filter (!isFaulty g ·)

/-- The printed average is the floor of the mean of the printed values. -/
def ReportsAgree (g : GlobalOptions) (m : MemStat) : Prop :=
  reported g m ≠ [] ∧ ∃ avg, avgRss g m = .ok avg ∧
    avg.toInt64.toInt = ((reported g m).map Int64.toInt).sum / (reported g m).length

/-- No sum of a report overflows. -/
structure NoOverflow (g : GlobalOptions) (m : MemStat) : Prop where
  heap : g.metadataHeapSz.toNat * 1024 < 2 ^ 63
  sums : SumsFit (m.counted.map Int64.toInt)
  values : ∀ rss ∈ m.counted, -2 ^ 63 ≤ rss.toInt - g.metadataHeapSz.toNat * 1024

/-- What the average excludes less of the metadata heap than the printed values. -/
def excess (g : GlobalOptions) : Int :=
  if g.doBaselineRss = 0 then 0 else g.metadataHeapSz.toNat * 1024

/-- The faulty samples make up for the difference between the reports: they fall short of the
mean of the others by the remainder of the latter and by the excess for each sample, up to
one less than the number of samples. -/
structure Compensates (g : GlobalOptions) (m : MemStat) : Prop where
  valid_ne_nil : valid g m ≠ []
  shortfall_le :
    Truncation.shortfall (((valid g m).map Int64.toInt).sum / (valid g m).length)
        ((m.counted.filter (isFaulty g)).map Int64.toInt) ≤
      ((valid g m).map Int64.toInt).sum % (valid g m).length + m.counted.length * excess g +
        Truncation.rounding m.total m.counted.length
  lt_shortfall :
    ((valid g m).map Int64.toInt).sum % (valid g m).length + m.counted.length * excess g +
        Truncation.rounding m.total m.counted.length <
      Truncation.shortfall (((valid g m).map Int64.toInt).sum / (valid g m).length)
        ((m.counted.filter (isFaulty g)).map Int64.toInt) + m.counted.length

/-- An `unsigned long` that fits a `long` is the same number there. -/
theorem toInt_toInt64_of_lt {x : UInt64} (h : x.toNat < 2 ^ 63) : x.toInt64.toInt = x.toNat := by
  have hx : x = UInt64.ofNat x.toNat := UInt64.ofNat_toNat.symm
  rw [hx, UInt64.toNat_ofNat_of_lt' (Nat.lt_trans h (by decide))]
  exact Int64.toInt_ofNat_of_lt h

private theorem toInt_heap (h : g.metadataHeapSz.toNat * 1024 < 2 ^ 63) :
    (g.metadataHeapSz * 1024).toInt64.toInt = g.metadataHeapSz.toNat * 1024 := by
  have hm : (g.metadataHeapSz * 1024).toNat = g.metadataHeapSz.toNat * 1024 := by
    rw [UInt64.toNat_mul]
    exact Nat.mod_eq_of_lt (show g.metadataHeapSz.toNat * 1024 < 2 ^ 64 by omega)
  rw [toInt_toInt64_of_lt (hm ▸ h), hm]
  rfl

private theorem mean_reported (hm : Records g m) (hv : g.verbosity ≠ 0) (ho : NoOverflow g m)
    (hne : valid g m ≠ []) :
    ((reported g m).map Int64.toInt).sum / (reported g m).length =
      ((valid g m).map Int64.toInt).sum / (valid g m).length -
        g.metadataHeapSz.toNat * 1024 := by
  have hr : reported g m = (valid g m).map (· - (g.metadataHeapSz * 1024).toInt64) :=
    hm.reported hv
  have he : (reported g m).map Int64.toInt =
      (valid g m).map (·.toInt - (g.metadataHeapSz.toNat * 1024 : Int)) := by
    rw [hr, List.map_map]
    apply List.map_congr_left
    intro rss hx
    have hlo := ho.values rss (List.mem_filter.mp hx).1
    have hhi := rss.toInt_lt
    rw [Function.comp_apply, Int64.toInt_sub, toInt_heap ho.heap]
    exact Int.bmod_eq_of_le (by omega) (by omega)
  rw [← Truncation.sum_map_sub_ediv Int64.toInt _ _ hne, he, hr, List.length_map]

private theorem avgRss_eq_ok (hm : Records g m) (hs : g.samples.toInt = m.counted.length)
    (hpos : 0 < m.counted.length) (ho : NoOverflow g m) :
    ∃ avg, avgRss g m = .ok avg ∧ avg.toInt64.toInt =
      m.total.tdiv m.counted.length - (g.metadataHeapSz.toNat * 1024 - excess g) := by
  obtain ⟨q, hq, hv⟩ := meanRss_eq_ok hm hs hpos ho.sums
  unfold excess
  by_cases hb : g.doBaselineRss = 0
  · refine ⟨q.toUInt64 - g.metadataHeapSz * 1024, ?_, ?_⟩
    · simp only [avgRss, hq, hb, if_true, bind, Except.bind, pure, Except.pure]
    · have hle := Truncation.le_tdiv_mean Int64.toInt m.counted
        (b := -2 ^ 63 + g.metadataHeapSz.toNat * 1024)
        (fun rss hx ↦ by have := ho.values rss hx; omega) (List.ne_nil_of_length_pos hpos)
      have hhi := q.toInt_lt
      have hh := ho.heap
      rw [← MemStat.total, ← hv] at hle
      rw [UInt64.toInt64_sub, Int64.toInt64_toUInt64, Int64.toInt_sub, toInt_heap ho.heap,
        if_pos hb, ← hv, Int.bmod_eq_of_le (by omega) (by omega)]
      omega
  · refine ⟨q.toUInt64, ?_, ?_⟩
    · simp only [avgRss, hq, if_neg hb, bind, Except.bind, pure, Except.pure]
    · rw [Int64.toInt64_toUInt64, if_neg hb, hv]
      omega

/-- Without faulty samples the reports of the resident set size agree. -/
theorem compensates_of_no_faulty (hb : g.doBaselineRss = 0) (hne : m.counted ≠ [])
    (hf : ∀ rss ∈ m.counted, isFaulty g rss = false) (hp : 0 ≤ m.total) : Compensates g m := by
  have hv : valid g m = m.counted := List.filter_eq_self.mpr fun x hx ↦ by simp [hf x hx]
  have hn : m.counted.filter (isFaulty g) = [] :=
    List.filter_eq_nil_iff.mpr fun x hx ↦ by simp [hf x hx]
  have hpos : 0 < m.counted.length := List.length_pos_iff.mpr hne
  have hlo := Int.emod_nonneg (m.counted.map Int64.toInt).sum
    (show (m.counted.length : Int) ≠ 0 by omega)
  have hhi := Int.emod_lt_of_pos (m.counted.map Int64.toInt).sum
    (show 0 < (m.counted.length : Int) by omega)
  have hr : Truncation.rounding m.total m.counted.length = 0 := if_neg (by omega)
  refine ⟨by rwa [hv], ?_, ?_⟩ <;>
  · rw [hv, hn, hr, excess, if_pos hb]
    simp only [List.map_nil, Truncation.shortfall, List.sum_nil]
    omega

/-- Without faulty samples the reports of the baseline do not agree, since only one of them
excludes the metadata heap. -/
theorem not_compensates_of_no_faulty (hb : g.doBaselineRss ≠ 0) (hh : g.metadataHeapSz ≠ 0)
    (hf : ∀ rss ∈ m.counted, isFaulty g rss = false) : ¬ Compensates g m := by
  intro ⟨hne, _, hlt⟩
  have hv : valid g m = m.counted := List.filter_eq_self.mpr fun x hx ↦ by simp [hf x hx]
  have hn : m.counted.filter (isFaulty g) = [] :=
    List.filter_eq_nil_iff.mpr fun x hx ↦ by simp [hf x hx]
  rw [hv] at hne
  have hpos : 0 < m.counted.length := List.length_pos_iff.mpr hne
  have hlo := Int.emod_nonneg (m.counted.map Int64.toInt).sum
    (show (m.counted.length : Int) ≠ 0 by omega)
  have hr : 0 ≤ Truncation.rounding m.total m.counted.length := by
    unfold Truncation.rounding
    split <;> omega
  have hH : 0 < g.metadataHeapSz.toNat := by
    rw [Nat.pos_iff_ne_zero]
    exact fun h ↦ hh (UInt64.toNat_inj.mp h)
  have hx : (m.counted.length : Int) * 1 ≤ m.counted.length * excess g := by
    rw [excess, if_neg hb]
    exact Int.mul_le_mul_of_nonneg_left (by omega) (Int.natCast_nonneg _)
  rw [hv, hn] at hlt
  simp only [List.map_nil, Truncation.shortfall, List.sum_nil] at hlt
  omega

/-- The printed average is the mean of the printed values exactly if the faulty samples, which
have been counted but are not printed, make up for the difference. -/
theorem reportsAgree_iff (hs : Sampled g R s m) (hc : Completed g.toGOptions s)
    (hn : 0 < g.threads) (hv : 1 ≤ g.verbosity.toInt)
    (hd : 2 * g.maxLiveness.toInt < g.benchmarkDuration.toInt) (ho : NoOverflow g m) :
    ReportsAgree g m ↔ Compensates g m := by
  have hm := hs.records
  have hv' : g.verbosity ≠ 0 := by
    intro h
    rw [h] at hv
    exact absurd hv (by decide)
  have hnil : valid g m = [] ↔ reported g m = [] := by
    rw [hm.reported hv', List.map_eq_nil_iff]
    rfl
  by_cases hne : valid g m = []
  · exact ⟨fun h ↦ absurd (hnil.mp hne) h.1, fun h ↦ absurd hne h.valid_ne_nil⟩
  · obtain hM | hM := Int.lt_or_le g.maxLiveness.toInt 0
    · rw [valid, hs.counted_of_neg hM] at hne
      exact absurd rfl hne
    · obtain ⟨hlen, hpos⟩ := samples_eq_length hs hc hn hM hd
      obtain ⟨avg, havg, hval⟩ := avgRss_eq_ok hm hlen hpos ho
      have hmean := mean_reported hm hv' ho hne
      have hiff := Truncation.tdiv_mean_eq_iff Int64.toInt (!isFaulty g ·) m.counted (excess g) hne
      simp only [Bool.not_not] at hiff
      constructor
      · intro ⟨_, avg', havg', hval'⟩
        obtain rfl := Except.ok.inj (havg.symm.trans havg')
        have he := hval.symm.trans (hval'.trans hmean)
        obtain ⟨hlo, hhi⟩ := hiff.mp (by rw [MemStat.total, valid] at he; omega)
        exact ⟨hne, hlo, hhi⟩
      · intro h
        refine ⟨mt hnil.mpr hne, avg, havg, ?_⟩
        have he := hiff.mpr ⟨h.shortfall_le, h.lt_shortfall⟩
        rw [hval, hmean, MemStat.total, valid, he]
        omega

private theorem noOverflow_of_counted (b : Int32) (h : m.counted = [2000]) :
    NoOverflow (sampledOptions 3 b) m where
  heap := show (1 : UInt64).toNat * 1024 < 2 ^ 63 by decide
  sums := by
    have hx : m.counted.map Int64.toInt = [2000] := by
      rw [h]
      rfl
    rw [hx, sumsFit_iff_of_nonneg (by decide)]
    decide
  values := by
    rw [h]
    rw [List.forall_mem_singleton]
    show -2 ^ 63 ≤ (2000 : Int64).toInt - (1 : UInt64).toNat * 1024
    decide

/-- A sample that is not faulty. -/
theorem reportsAgree_iff_three_quanta :
    let g := sampledOptions 3 0
    ∃ (s : Sys Int32) (m : MemStat), Sampled g (schrage g.toGOptions) s m ∧
      Completed g.toGOptions s ∧ NoOverflow g m ∧ (ReportsAgree g m ↔ Compensates g m) := by
  obtain ⟨s, m, hm, hc, hx⟩ := exists_three_quanta 0
  have ho := noOverflow_of_counted 0 hx
  exact ⟨s, m, hm, hc, ho, reportsAgree_iff hm hc (by decide) (by decide) (by decide) ho⟩

/-- The baseline is reported with the metadata heap in one line and without it in the
other. -/
theorem not_forall_reportsAgree :
    ¬ ∀ (g : GlobalOptions) (s : Sys Int32) (m : MemStat),
      Sampled g (schrage g.toGOptions) s m → Completed g.toGOptions s → 0 < g.threads →
      1 ≤ g.verbosity.toInt → 2 * g.maxLiveness.toInt < g.benchmarkDuration.toInt →
      g.doBaselineRss = 0 ∨ g.doBaselineRss = 1 → NoOverflow g m → ReportsAgree g m := by
  intro h
  obtain ⟨s, m, hm, hc, hx⟩ := exists_three_quanta 1
  have ho := noOverflow_of_counted 1 hx
  obtain ⟨-, avg, havg, hval⟩ := h (sampledOptions 3 1) s m hm hc (by decide) (by decide)
    (by decide) (by decide) ho
  have hv : valid (sampledOptions 3 1) m = [2000] := by
    rw [valid, hx]
    decide
  have hmean := mean_reported hm.records (by decide) ho (by rw [hv]; nofun)
  obtain ⟨avg', havg', hval'⟩ := avgRss_eq_ok hm.records (by rw [hx]; decide)
    (by rw [hx]; decide) ho
  obtain rfl := Except.ok.inj (havg.symm.trans havg')
  rw [hval, hmean, hv, MemStat.total, hx] at hval'
  exact absurd hval' (by decide)

end Acdc
