import Acdc.Params

/-!
# Divisors

The integer divisions that the worker threads make: `src/distribution.c:91`,
`src/lifetime-size-classes.c:88–94`, `src/acdc.c:618` and the indices of the heap-classes.
`write_ith_element` guards the ratios from which its divisor would be derived at one end
only, `get_random_thread_selection` not at all, and only a negative time gap is replaced. All of
them are made inside the loop of `src/acdc.c:540`, which a run without a duration does not enter.
-/

namespace Acdc

variable {σ : Type}

/-- No division of an iteration has divisor zero, whatever the generator state, the clock and
the object: those of a selection of receivers, which only a sharing iteration makes, those of
the write accesses, which are made if live objects are accessed, that of the time-gap test
after one of the quanta of the run, and those of the indices. -/
structure DivisionsDefined (g : GOptions) (R : Generator σ) : Prop where
  selection : ∀ s s', getSharingDist g R s = .ok (true, s') →
    getRandomThreadSelection g R s' ≠ .error .undefined
  writes : g.accessLiveObjects ≠ 0 → ∀ i, Objects.writeIthElement g i ≠ .error .undefined
  timeGap : ∀ i (s : Sys σ), 1 ≤ (s.threads i).runs →
    ((s.threads i).runs : Int) ≤ g.benchmarkDuration.toInt →
    (s.threads i).mc.heapClass[heapClassRemoveIndex g (s.threads i).mc.time]? = some [] →
      remove g i s ≠ .error .undefined
  wheel : g.maxLiveness + g.deallocationDelay ≠ 0 ∧ g.wheelSize ≠ 0

/-- No division of the worker threads has divisor zero. They make one only if the test of their
loop passes, which it does at the start or never. -/
def DivisorsNonzero (g : GOptions) (R : Generator σ) : Prop :=
  0 < g.benchmarkDuration.toInt → DivisionsDefined g R

variable {g : GOptions} {R : Generator σ}

/-- A draw fails at an assertion or not at all. -/
theorem getRandIntRange_ne {s : σ} {lo hi : Int32} {e : Stop} (he : e ≠ .assertion) :
    getRandIntRange R s lo hi ≠ .error e := by
  unfold getRandIntRange
  split
  · intro h
    exact he (Except.error.inj h).symm
  · nofun

/-- The removal of receivers fails at an assertion or not at all. -/
theorem removeRandomThreads_ne {e : Stop} (he : e ≠ .assertion) (m : Nat) (s : σ) (a : List Nat)
    (sz : Nat) : removeRandomThreads R m s a sz ≠ .error e := by
  induction m generalizing s a sz with
  | zero => nofun
  | succ m ih =>
    rw [removeRandomThreads]
    cases hr : getRandIntRange R s 0 (Int32.ofNat sz - 1) with
    | error e' =>
      intro h
      have hee : e' = e := Except.error.inj h
      exact getRandIntRange_ne he (hee ▸ hr)
    | ok p => exact ih p.2 _ _

/-- A selection divides by zero exactly for a ratio of 0 or above 100. -/
theorem selection_undefined_iff (s : σ) :
    getRandomThreadSelection g R s = .error .undefined ↔
      g.receivingThreadsRatio = 0 ∨ 100 < g.receivingThreadsRatio.toInt.natAbs := by
  have hdiv : g.receivingThreadsRatio = 0 ∨ 100 / g.receivingThreadsRatio = 0 ↔
      g.receivingThreadsRatio = 0 ∨ 100 < g.receivingThreadsRatio.toInt.natAbs :=
    or_congr_right' hundred_div_eq_zero_iff
  rw [← hdiv]
  unfold getRandomThreadSelection
  split
  · next h => exact ⟨fun _ ↦ h, fun _ ↦ rfl⟩
  · next h =>
    refine ⟨fun hu ↦ ?_, fun h' ↦ absurd h' h⟩
    cases hm : removeRandomThreads R
      (g.numThreads - g.numThreads / (100 / g.receivingThreadsRatio)).toNatClampNeg s
      (List.range g.threads) g.threads with
    | error e =>
      simp only [hm] at hu
      have hee : e = .undefined := Except.error.inj hu
      exact absurd (hee ▸ hm) (removeRandomThreads_ne (by decide) _ _ _ _)
    | ok q =>
      simp only [hm] at hu
      cases hu

private theorem shares_of_zero (g : GOptions) (hs : g.sharedObjects ≠ 0)
    (hr : 0 < g.sharedObjectsRatio.toInt) :
    getSharingDist g (schrage g) 0 = .ok (true, 0) := by
  have hn : nextRand 0 = 0 := by decide
  have hd : getRandIntRange (schrage g) (0 : Int32) 0 100 = .ok (0, 0) := by
    have hle : ¬ (100 : Int32) < 0 := by decide
    simp only [getRandIntRange, schrage, hn, if_neg hle]
    rfl
  have hlt : (0 : Int32) < g.sharedObjectsRatio := Int32.lt_iff_toInt_lt.mpr hr
  simp [getSharingDist, hs, hd, hlt, bind, Except.bind, pure, Except.pure]

private theorem not_shares {s s' : σ} (hr : g.sharedObjectsRatio.toInt ≤ 0) :
    getSharingDist g R s ≠ .ok (true, s') := by
  intro h
  unfold getSharingDist at h
  split at h
  · cases h
  · obtain ⟨⟨r, t⟩, hd, h⟩ := bind_eq_ok h
    have hb := (getRandIntRange_bounds R hd (by decide)).1
    have hz : (0 : Int32).toInt = 0 := rfl
    have hlt : r < g.sharedObjectsRatio := by
      have := (Prod.mk.inj (Except.ok.inj h)).1
      exact of_decide_eq_true this
    rw [Int32.lt_iff_toInt_lt] at hlt
    omega

/-- What keeps the divisors of the checked options from being zero. -/
structure SafeDivisors (o : GOptions) : Prop where
  receivers : o.sharedObjects = 0 ∨ o.sharedObjectsRatio.toInt ≤ 0 ∨
    (1 ≤ o.receivingThreadsRatio.toInt.natAbs ∧ o.receivingThreadsRatio.toInt.natAbs ≤ 100)
  writes : o.accessLiveObjects = 0 ∨ -100 ≤ o.writeAccessRatio.toInt
  timeGap : o.maxTimeGap ≠ 0

/-- No worker thread divides by zero: it makes no iteration, or its divisors are safe. -/
def DividesSafely (o : GOptions) : Prop := o.benchmarkDuration.toInt ≤ 0 ∨ SafeDivisors o

private theorem remove_ne_undefined (hg : g.maxTimeGap ≠ 0) (i : Nat) (s : Sys σ)
    (hn : (s.threads i).mc.heapClass[heapClassRemoveIndex g (s.threads i).mc.time]? = some []) :
    remove g i s ≠ .error .undefined := by
  simp only [remove, hn, if_neg hg]
  nofun

private theorem exists_remove_undefined (R : Generator σ) (hM : 0 < g.maxLiveness.toInt)
    (hD : 0 ≤ g.deallocationDelay.toInt) (hg : g.maxTimeGap = 0) :
    ∃ s : Sys σ, (s.threads 0).runs = 1 ∧
      (s.threads 0).mc.heapClass[heapClassRemoveIndex g (s.threads 0).mc.time]? = some [] ∧
        remove g 0 s = .error .undefined := by
  have hlt := heapClassRemoveIndex_lt hM hD 0
  have he : (List.replicate g.wheelSize ([] : LClass))[heapClassRemoveIndex g 0]? = some [] := by
    simp [hlt]
  refine ⟨(runAcdc g R).put 0 { (runAcdc g R).threads 0 with runs := 1 }, ?_, ?_, ?_⟩
  · simp
  · simpa [runAcdc, createMutatorContext] using he
  · simp [remove, runAcdc, createMutatorContext, he, hg]

private theorem modulus_ne_zero (hM : 0 < g.maxLiveness.toInt)
    (hD : 0 ≤ g.deallocationDelay.toInt) :
    g.maxLiveness + g.deallocationDelay ≠ 0 ∧ g.wheelSize ≠ 0 := by
  have hlM := g.maxLiveness.toInt_lt
  have hlD := g.deallocationDelay.toInt_lt
  refine ⟨fun h ↦ ?_, Nat.ne_of_gt (wheelSize_pos hM hD)⟩
  have hz := congrArg Int32.toInt h
  rw [Int32.toInt_add, show (0 : Int32).toInt = 0 from rfl] at hz
  have hdvd := Int.dvd_of_bmod_eq_zero hz
  omega

private theorem divisorsNonzero_iff_dividesSafely (hM : 0 < g.maxLiveness.toInt)
    (hD : 0 ≤ g.deallocationDelay.toInt) :
    DivisorsNonzero g (schrage g) ↔ DividesSafely g := by
  rw [DivisorsNonzero, DividesSafely]
  by_cases hrun : g.benchmarkDuration.toInt ≤ 0
  · exact iff_of_true (fun h ↦ absurd hrun (Int.not_le.mpr h)) (.inl hrun)
  rw [or_iff_right hrun, forall_prop_of_true (Int.not_le.mp hrun)]
  constructor
  · intro h
    constructor
    · by_contra hc
      push Not at hc
      obtain ⟨hs, hr, ht⟩ := hc
      apply h.selection 0 0 (shares_of_zero g hs hr)
      apply (selection_undefined_iff 0).mpr
      rw [← Int32.toInt_inj, show (0 : Int32).toInt = 0 from rfl]
      omega
    · by_contra hc
      push Not at hc
      exact h.writes hc.1 0 ((Objects.writeIthElement_undefined_iff 0).mpr hc.2)
    · intro hg
      obtain ⟨s, h1, he, hu⟩ := exists_remove_undefined (schrage g) hM hD hg
      exact h.timeGap 0 s h1.ge (by omega) he hu
  · intro h
    refine ⟨fun s s' hs hu ↦ ?_, fun ha i hu ↦ ?_,
      fun i s _ _ ↦ remove_ne_undefined h.timeGap i s, modulus_ne_zero hM hD⟩
    · obtain ho | hr | ht := h.receivers
      · simp [getSharingDist, ho] at hs
      · exact not_shares hr hs
      · have hz := (selection_undefined_iff s').mp hu
        rw [← Int32.toInt_inj, show (0 : Int32).toInt = 0 from rfl] at hz
        omega
    · have hw := h.writes.resolve_left ha
      have hlt := (Objects.writeIthElement_undefined_iff i).mp hu
      omega

/-- The worker threads divide by no zero exactly if the run has no duration, or the ratio of
receivers, where it is used, is a nonzero percentage up to its sign, the write access ratio, where
it is used, is at least -100, and the time gap is not zero. -/
theorem divisorsNonzero_iff {estimate : GlobalOptions → Option (UInt64 × UInt64)}
    {o p : GlobalOptions} (hm : o.mode = .acdc) (h : checkParams estimate o = some p)
    (hM : 1 ≤ o.maxLiveness.toInt) (hD : 0 ≤ o.deallocationDelay.toInt) :
    DivisorsNonzero p.toGOptions (schrage p.toGOptions) ↔ DividesSafely o.toGOptions := by
  obtain ⟨c, n, hp⟩ := exists_of_checkParams hm h
  have hgap : (o.toGOptions.checked c n).maxTimeGap ≠ 0 ↔ o.maxTimeGap ≠ 0 := by
    rw [GOptions.checked_maxTimeGap]
    split
    · next hn =>
      have hz : (0 : Int32).toInt = 0 := rfl
      rw [Int32.lt_iff_toInt_lt] at hn
      rw [Ne, Ne, ← Int32.toInt_inj, ← Int32.toInt_inj]
      omega
    · rfl
  rw [hp, divisorsNonzero_iff_dividesSafely (g := o.toGOptions.checked c n) hM hD]
  apply or_congr_right
  constructor
  · intro ⟨h1, h2, h3⟩
    exact ⟨h1, h2, hgap.mp h3⟩
  · intro ⟨h1, h2, h3⟩
    exact ⟨h1, h2, hgap.mpr h3⟩

/-- The defaults with given sizes are accepted and divide by no zero. -/
theorem divisorsNonzero_iff_defaults :
    let p := { sizedOptions with maxTimeGap := 10 }
    DivisorsNonzero p.toGOptions (schrage p.toGOptions) ↔ DividesSafely sizedOptions.toGOptions :=
  @divisorsNonzero_iff (fun _ ↦ none) sizedOptions _ rfl (by decide) (by decide)
    (by decide)

/-- Options in which every collection is shared with no ratio of receivers. -/
def unreceivedOptions : GlobalOptions :=
  { sizedOptions with
    numThreads := 2
    sharedObjects := 1
    sharedObjectsRatio := 100
    receivingThreadsRatio := 0 }

/-- Accepted options under which a selection divides by zero. -/
theorem not_forall_divisorsNonzero :
    ¬ ∀ (estimate : GlobalOptions → Option (UInt64 × UInt64)) (o p : GlobalOptions),
      o.mode = .acdc → checkParams estimate o = some p → 1 ≤ o.numThreads.toInt →
      1 ≤ o.maxLiveness.toInt → 0 ≤ o.deallocationDelay.toInt →
      DivisorsNonzero p.toGOptions (schrage p.toGOptions) := by
  intro h
  have hd := h (fun _ ↦ none) unreceivedOptions { unreceivedOptions with maxTimeGap := 10 } rfl
    (by decide) (by decide) (by decide) (by decide)
  exact (hd (by decide)).selection 0 0 (by decide) (by decide)

end Acdc
