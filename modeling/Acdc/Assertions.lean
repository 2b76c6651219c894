import Acdc.Histograms
import Acdc.ObjectProps
import Acdc.Params

/-!
# Assertions of an iteration

What the check of the options leaves to the assertions of one iteration of the main loop:
those of the draws, `src/distribution.c:25–145`, and of `allocate_LSClass`,
`src/lifetime-size-classes.c:468–470`. The draws keep to their ranges. Three cases are left
open: the product of squares of `unsigned int` may wrap to zero, the clamp of the size to
`sizeof(BTObject)` may exceed the greatest size, and a negative ratio of receivers removes
more threads than there are.
-/

namespace Acdc

variable {σ : Type}

/-- Ranges of lifetimes and size-classes. -/
structure Ranges (o : GOptions) : Prop where
  liveness_pos : 1 ≤ o.minLiveness.toInt
  liveness_le : o.minLiveness.toInt ≤ o.maxLiveness.toInt
  sc_nonneg : 0 ≤ o.minObjectSc.toInt
  sc_lt : o.minObjectSc.toInt < o.maxObjectSc.toInt
  sc_le : o.maxObjectSc.toInt ≤ 31
  fixed_nonneg : 0 ≤ o.fixedNumberOfObjects.toInt

theorem Ranges.draws {o : GOptions} (h : Ranges o) : DrawRanges o :=
  ⟨h.liveness_pos, h.liveness_le, h.sc_nonneg, h.sc_lt, h.sc_le⟩

/-- Properties of a collection whose assertions hold. -/
structure DrawnProps (g : GOptions) (p : ObjectProps) : Prop where
  liveness_le : p.liveness.toNat ≤ g.maxLiveness.toInt
  size_pos : 0 < p.size.toNat
  size_lt : p.size.toNat < 2 ^ g.maxObjectSc.toNatClampNeg
  num_pos : 0 < p.numObjects
  type : p.type = .list ∨ p.type = .btree

/-- Properties with the overrides: the clamp of the size may exceed the greatest one. -/
structure PreparedProps (g : GOptions) (p : ObjectProps) : Prop where
  liveness_le : p.liveness.toNat ≤ g.maxLiveness.toInt
  size_ge : 16 ≤ p.size.toNat
  size_lt : p.size.toNat < 2 ^ g.maxObjectSc.toNatClampNeg ∨ p.size.toNat = 16
  num_pos : 0 < p.numObjects
  hasBuilder : p.type.hasBuilder = true

/-- The number of objects that a generator state leads to wraps to zero. -/
def CountWraps (g : GOptions) (R : Generator σ) (s : σ) : Prop :=
  2 ^ 16 ∣ (g.maxObjectSc.toNatClampNeg - sizeclassAt g R s + 1) *
    (g.maxLiveness.toNatClampNeg - livenessAt g R s + 1)

variable {g : GOptions} {R : Generator σ}

section Drawn

variable (hg : Ranges g)
include hg

private theorem getRandomObjectProps_cases (s : σ) :
    (CountWraps g R s ∧ getRandomObjectProps g R s = .error .assertion) ∨
      (¬ CountWraps g R s ∧ ∃ p, getRandomObjectProps g R s = .ok (p, R.next^[4] s) ∧
        DrawnProps g p) := by
  have hlb := (livenessAt_bounds (R := R) hg.draws s).2
  have hsb := (sizeclassAt_bounds (R := R) hg.draws s).2
  have h2 := hg.sc_nonneg
  obtain ⟨p, hp, hr⟩ := getRandomObjectProps_spec (R := R) hg.draws s
  have hpos : 0 < 2 ^ sizeclassAt g R s := Nat.two_pow_pos _
  have hle : 2 ^ (sizeclassAt g R s + 1) ≤ 2 ^ g.maxObjectSc.toNatClampNeg :=
    Nat.pow_le_pow_right (by decide) (by rw [Int32.toNatClampNeg]; omega)
  have hw : p.numObjects = 0 ↔ CountWraps g R s := by
    rw [← UInt32.toNat_inj, hp.num, UInt32.toNat_zero, ← Nat.dvd_iff_mod_eq_zero, objectCount,
      ← Nat.mul_pow, show 2 ^ 32 = (2 ^ 16) ^ 2 from rfl, Nat.pow_dvd_pow_iff (by decide),
      CountWraps]
  by_cases h : CountWraps g R s
  · rw [hw.mpr h] at hr
    exact .inl ⟨h, hr⟩
  · have hnum : 0 < p.numObjects := UInt32.pos_iff_ne_zero.mpr (mt hw.mp h)
    rw [if_pos hnum] at hr
    refine .inr ⟨h, p, hr, ?_, ?_, ?_, hnum, hp.type⟩
    · rw [hp.liveness]
      exact hlb.2
    · exact Nat.lt_of_lt_of_le hpos hp.size_ge
    · exact Nat.lt_of_lt_of_le hp.size_lt hle

private theorem drawnProps_fixed {p : ObjectProps} (hp : DrawnProps g p)
    (hf : 0 < g.fixedNumberOfObjects) :
    DrawnProps g { p with
      numObjects := g.fixedNumberOfObjects.toUInt32
      size := bitZeroShl g.minObjectSc
      liveness := g.minLiveness.toUInt32 } where
  liveness_le := by
    have h1 := hg.liveness_pos
    have h2 := hg.liveness_le
    have hl := toNat_toUInt32 (show 0 ≤ g.minLiveness.toInt by omega)
    dsimp only
    omega
  size_pos := by
    change 0 < (bitZeroShl g.minObjectSc).toNat
    rw [(toNat_bounds hg.draws).1]
    exact Nat.two_pow_pos _
  size_lt := by
    have h1 := hg.sc_nonneg
    have h2 := hg.sc_lt
    change (bitZeroShl g.minObjectSc).toNat < _
    rw [(toNat_bounds hg.draws).1]
    apply Nat.pow_lt_pow_right (by decide)
    simp only [Int32.toNatClampNeg]
    omega
  num_pos := by
    rw [Int32.lt_iff_toInt_lt, show (0 : Int32).toInt = 0 from rfl] at hf
    have hn := toNat_toUInt32 (show 0 ≤ g.fixedNumberOfObjects.toInt by omega)
    rw [UInt32.lt_iff_toNat_lt, UInt32.toNat_zero]
    dsimp only
    omega
  type := hp.type

omit hg in
private theorem preparedProps_clamp {p : ObjectProps} (hp : DrawnProps g p) :
    PreparedProps g
      (if p.size < sizeofBTObject then { p with size := sizeofBTObject } else p) := by
  have hb : sizeofBTObject.toNat = 16 := rfl
  have ht : p.type.hasBuilder = true := by
    obtain h | h := hp.type <;>
    · rw [h]
      rfl
  split
  · exact ⟨hp.liveness_le, hb.ge, .inr hb, hp.num_pos, ht⟩
  · next h =>
    rw [UInt64.lt_iff_toNat_lt, hb] at h
    exact ⟨hp.liveness_le, by omega, .inl hp.size_lt, hp.num_pos, ht⟩

private theorem preparedProps_of_drawnProps {p : ObjectProps} (hp : DrawnProps g p) :
    PreparedProps g (prepareProps g p) := by
  unfold prepareProps
  dsimp only
  generalize hq : (if 0 < g.fixedNumberOfObjects then _ else p) = q
  have hd : DrawnProps g q := by
    rw [← hq]
    split
    · next hf => exact drawnProps_fixed hg hp hf
    · exact hp
  have hc := preparedProps_clamp hd
  generalize (if q.size < sizeofBTObject then { q with size := sizeofBTObject } else q) = r
    at hc ⊢
  obtain ⟨hl, hge, hlt, hn, ht⟩ := hc
  split
  · exact ⟨hl, hge, hlt, hn, ht⟩
  · split
    · exact ⟨hl, hge, hlt, hn, rfl⟩
    · exact ⟨hl, hge, hlt, hn, rfl⟩
    · exact ⟨hl, hge, hlt, hn, ht⟩

end Drawn

/-! ### Selection of receivers -/

/-- Number of threads that a selection of receivers removes; `src/distribution.c:107`. -/
def removals (g : GOptions) : Nat :=
  (g.numThreads - g.numThreads / (100 / g.receivingThreadsRatio)).toNatClampNeg

/-- A generator state leads to sharing. -/
def SharesAt (g : GOptions) (R : Generator σ) (s : σ) : Prop :=
  g.sharedObjects ≠ 0 ∧ (R.rand (R.next s)).toInt % 101 < g.sharedObjectsRatio.toInt

/-- The draw of a sharing decision. -/
theorem getSharingDist_cases (s : σ) :
    (SharesAt g R s ∧ ∃ s', getSharingDist g R s = .ok (true, s')) ∨
      (¬ SharesAt g R s ∧ ∃ s', getSharingDist g R s = .ok (false, s')) := by
  obtain ⟨r, hr, hv⟩ := getRandIntRange_eq_ok R s (show (0 : Int32).toInt ≤ (100 : Int32).toInt by
    decide) (by decide)
  have hz : (0 : Int32).toInt = 0 := rfl
  have hc : (100 : Int32).toInt = 100 := rfl
  rw [hz, hc] at hv
  unfold getSharingDist
  split
  · next h => exact .inr ⟨fun hs ↦ hs.1 h, s, rfl⟩
  · next h =>
    simp only [hr, bind, Except.bind, pure, Except.pure]
    by_cases hlt : r < g.sharedObjectsRatio
    · refine .inl ⟨⟨h, ?_⟩, R.next s, by rw [decide_eq_true hlt]⟩
      rw [Int32.lt_iff_toInt_lt] at hlt
      omega
    · refine .inr ⟨fun hs ↦ hlt ?_, R.next s, by rw [decide_eq_false hlt]⟩
      rw [Int32.lt_iff_toInt_lt]
      have := hs.2
      omega

private theorem removeRandomThreads_error_iff {m : Nat} {s : σ} {a : List Nat} {sz : Nat}
    (hb : sz < 2 ^ 31) : removeRandomThreads R m s a sz = .error .assertion ↔ sz < m := by
  induction m generalizing s a sz with
  | zero => exact ⟨nofun, nofun⟩
  | succ m ih =>
    rw [removeRandomThreads]
    obtain rfl | h0 := Nat.eq_zero_or_pos sz
    · rw [getRandIntRange_no_position]
      exact iff_of_true rfl (Nat.succ_pos m)
    · obtain ⟨r, hr, -⟩ := getRandIntRange_position R s h0 hb
      simp only [hr, bind, Except.bind]
      rw [ih (by omega)]
      omega

/-- A ratio that is not negative removes at most all threads. -/
theorem removals_le (h : 0 ≤ g.receivingThreadsRatio.toInt) : removals g ≤ g.threads := by
  have hc : (100 : Int32).toInt = 100 := rfl
  have hd : 0 ≤ (100 / g.receivingThreadsRatio).toInt := by
    have hb := (Truncation.tdiv_bounds 100 h).1 (by decide)
    rw [Int32.toInt_div, hc, Int.bmod_eq_of_le (by omega) (by omega)]
    exact hb.1
  have hl := g.numThreads.le_toInt
  have hu := g.numThreads.toInt_lt
  unfold removals GOptions.threads
  generalize 100 / g.receivingThreadsRatio = d at hd ⊢
  have hb := Truncation.tdiv_bounds g.numThreads.toInt hd
  have hq : (g.numThreads / d).toInt = g.numThreads.toInt.tdiv d.toInt := by
    rw [Int32.toInt_div, Int.bmod_eq_of_le (by omega) (by omega)]
  have hr : (g.numThreads - g.numThreads / d).toInt =
      g.numThreads.toInt - g.numThreads.toInt.tdiv d.toInt := by
    rw [Int32.toInt_sub, hq, Int.bmod_eq_of_le (by omega) (by omega)]
  simp only [Int32.toNatClampNeg]
  omega

-- A selection fails exactly if it removes more threads than there are. A zero divisor is
-- no assertion.
private theorem getRandomThreadSelection_error_iff (s : σ) :
    getRandomThreadSelection g R s = .error .assertion ↔ g.threads < removals g := by
  unfold getRandomThreadSelection
  split
  · next h =>
    have hd : 100 / g.receivingThreadsRatio = 0 := by
      obtain h | h := h
      · rw [h]
        rfl
      · exact h
    have hr : removals g = g.threads := by
      rw [removals, hd, Int32.div_zero, Int32.sub_zero]
      rfl
    exact ⟨nofun, fun hlt ↦ absurd hlt (by omega)⟩
  · have he := removeRandomThreads_error_iff (R := R) (m := removals g) (s := s)
      (a := List.range g.threads) g.threads_lt
    rw [← he]
    refine bind_eq_error_iff.trans ⟨fun h ↦ ?_, .inl⟩
    obtain h | ⟨q, -, h⟩ := h
    · exact h
    · cases h

private theorem heapClassInsert_ne_assertion (i : Nat) (mc : MContext σ) (hc : HeapClass)
    (c : Slot) (lifetime : UInt32) : heapClassInsert g i mc hc c lifetime ≠ .error .assertion := by
  intro h
  obtain h | ⟨q, -, h⟩ := bind_eq_error_iff.mp h
  · unfold getLSCNode at h
    split at h
    · cases h
    · rw [nodeSlot_eq] at h
      split at h
      · cases h
      · split at h <;> cases h
  · dsimp only at h
    split at h <;> cases h

private theorem place_error_iff {i : Nat} {c : Slot} {s : Sys σ} :
    place g R i c s = .error .assertion ↔
      SharesAt g R (s.threads i).mc.rand ∧ g.threads < removals g := by
  unfold place
  obtain ⟨hs, t, ht⟩ | ⟨hs, t, ht⟩ := getSharingDist_cases (g := g) (R := R)
    (s.threads i).mc.rand
  · rw [← getRandomThreadSelection_error_iff (R := R) t]
    dsimp only
    rw [ht]
    change (getRandomThreadSelection g R t >>= _) = _ ↔ _
    refine bind_eq_error_iff.trans ⟨fun h ↦ ⟨hs, ?_⟩, fun h ↦ .inl h.2⟩
    obtain h | ⟨q, -, h⟩ := h
    · exact h
    · cases h
  · dsimp only
    rw [ht]
    change (heapClassInsert g i _ _ c _ >>= _) = _ ↔ _
    refine ⟨fun h ↦ ?_, fun h ↦ absurd h.1 hs⟩
    obtain h | ⟨q, -, h⟩ := bind_eq_error_iff.mp h
    · exact absurd h (heapClassInsert_ne_assertion _ _ _ _ _)
    · cases h

/-! ### Iterations -/

/-- A thread enters the body of its loop, with the entries allocated for its histograms. -/
structure Iterates (g : GOptions) (i : Nat) (s : Sys σ) : Prop where
  looping : (s.threads i).pc = .looping
  runs_lt : (s.threads i).runs < g.benchmarkDuration.toInt
  ltLength : (s.threads i).mc.stat.ltHistogram.length = g.ltEntries
  szLength : (s.threads i).mc.stat.szHistogram.length = g.szEntries

/-- The histograms of a run keep their entries. -/
theorem Reachable.iterates {i : Nat} {s : Sys σ} (hs : Reachable g R s)
    (hl : (s.threads i).pc = .looping) (hr : (s.threads i).runs < g.benchmarkDuration.toInt) :
    Iterates g i s :=
  ⟨hl, hr, (hs.histograms i).ltLength, (hs.histograms i).szLength⟩

/-- No assertion of an iteration fails, neither in the draws and the allocation nor in the
placing of the collection, and no histogram is indexed outside of its entries. -/
structure ChecksPass (g : GOptions) (R : Generator σ) (i : Nat) (s : Sys σ) : Prop where
  create : create g R i s ≠ .error .assertion
  indices : Acdc.create g R i s ≠ .error .undefined
  place : ∀ s', Acdc.create g R i s = .ok s' → step g R i s' ≠ .error .assertion

/-- A slot is left for a class. -/
def HasSlot (g : GOptions) (mc : MContext σ) : Prop :=
  mc.classCache ≠ [] ∨ mc.classBufferCounter < g.classBufferSize.toNat

/-- What keeps the assertions of an iteration from failing. -/
structure SafeDraws (g : GOptions) (R : Generator σ) (i : Nat) (s : Sys σ) : Prop where
  count : ¬ CountWraps g R (s.threads i).mc.rand
  size : 5 ≤ g.maxObjectSc.toInt
  receivers : HasSlot g (s.threads i).mc →
    SharesAt g R (R.next^[4] (s.threads i).mc.rand) → removals g ≤ g.threads

private theorem allocateLSClass_error {i : Nat} {mc : MContext σ} {sz nelem : UInt64}
    {type : LifetimeSizeClassType} {lifetime : UInt32} (h : ¬ sz < bitZeroShl g.maxObjectSc) :
    allocateLSClass g i mc type sz nelem lifetime = .error .assertion := by
  unfold allocateLSClass assert
  by_cases h0 : 0 < sz
  · simp only [if_pos h0, if_neg h, bind, Except.bind]
  · simp only [if_neg h0, bind, Except.bind]

private theorem getLSClass_of_hasSlot (i : Nat) (mc : MContext σ) :
    (HasSlot g mc ∧ ∃ c mc', getLSClass g i mc = .ok (c, mc') ∧ mc'.rand = mc.rand) ∨
      (¬ HasSlot g mc ∧ getLSClass g i mc = .error .classBufferOverflow) := by
  unfold HasSlot getLSClass
  cases mc.classCache with
  | cons c rest => exact .inl ⟨.inl nofun, c, _, rfl, rfl⟩
  | nil =>
    dsimp only
    split
    · next h => exact .inr ⟨fun hs ↦ by simp at hs; omega, rfl⟩
    · next h => exact .inl ⟨.inr (by omega), _, _, rfl, rfl⟩

private theorem allocateLSClass_cases_of_lt {p : ObjectProps} (hp : PreparedProps g p)
    (h : p.size < bitZeroShl g.maxObjectSc) (i : Nat) (mc : MContext σ) (lifetime : UInt32) :
    (HasSlot g mc ∧ ∃ c d mc',
        allocateLSClass g i mc p.type p.size p.numObjects.toUInt64 lifetime = .ok (c, d, mc') ∧
          mc'.rand = mc.rand) ∨
      (¬ HasSlot g mc ∧ allocateLSClass g i mc p.type p.size p.numObjects.toUInt64 lifetime =
        .error .classBufferOverflow) := by
  have hge := hp.size_ge
  have h0 : 0 < p.size := by
    rw [UInt64.lt_iff_toNat_lt, UInt64.toNat_zero]
    omega
  have hn : 0 < p.numObjects.toUInt64 := by
    have := hp.num_pos
    rw [UInt32.lt_iff_toNat_lt, UInt32.toNat_zero] at this
    rw [UInt64.lt_iff_toNat_lt, UInt64.toNat_zero, UInt32.toNat_toUInt64]
    exact this
  have hc := sizeCheck_of_hasBuilder hp.hasBuilder hge
  simp only [allocateLSClass, assert, if_pos h0, if_pos h, if_pos hn, hc, bind, Except.bind, pure,
    Except.pure]
  obtain ⟨hs, c, mc', hg, hr⟩ | ⟨hs, hg⟩ := getLSClass_of_hasSlot (g := g) i
    { mc with stat := { mc.stat with
      bytesAllocated := mc.stat.bytesAllocated + p.size * p.numObjects.toUInt64
      objectsAllocated := mc.stat.objectsAllocated + p.numObjects.toUInt64 } }
  · simp only [hg]
    exact .inl ⟨hs, _, _, _, rfl, hr⟩
  · simp only [hg]
    exact .inr ⟨hs, trivial⟩

private theorem size_lt_iff (hg : Ranges g) {p : ObjectProps} (hp : PreparedProps g p) :
    p.size < bitZeroShl g.maxObjectSc ↔ 5 ≤ g.maxObjectSc.toInt := by
  have hge := hp.size_ge
  have hlt := hp.size_lt
  rw [UInt64.lt_iff_toNat_lt, (toNat_bounds hg.draws).2]
  constructor
  · intro h
    by_contra h5
    have hpow : 2 ^ g.maxObjectSc.toNatClampNeg ≤ 2 ^ 4 :=
      Nat.pow_le_pow_right (by decide) (by rw [Int32.toNatClampNeg]; omega)
    omega
  · intro h5
    have hpow : 2 ^ 5 ≤ 2 ^ g.maxObjectSc.toNatClampNeg :=
      Nat.pow_le_pow_right (by decide) (by rw [Int32.toNatClampNeg]; omega)
    omega

private theorem addAt_result (h : List UInt64) (j : Nat) (x : UInt64) :
    (j < h.length ∧ addAt h j x = .ok (h.modify j (· + x))) ∨
      (¬ j < h.length ∧ addAt h j x = .error .undefined) := by
  unfold addAt
  split
  · next hj => exact .inl ⟨hj, rfl⟩
  · next hj => exact .inr ⟨hj, rfl⟩

private theorem addAt_ltHistogram {i : Nat} {s : Sys σ} (hs : Iterates g i s) {q : ObjectProps}
    (hq : PreparedProps g q) (x : UInt64) :
    addAt (s.threads i).mc.stat.ltHistogram q.liveness.toNat x =
      .ok ((s.threads i).mc.stat.ltHistogram.modify q.liveness.toNat (· + x)) := by
  obtain ⟨-, h⟩ | ⟨hn, -⟩ := addAt_result (s.threads i).mc.stat.ltHistogram q.liveness.toNat x
  · exact h
  · have hle := hq.liveness_le
    rw [hs.ltLength, GOptions.ltEntries] at hn
    omega

private theorem addAt_szHistogram {i : Nat} {s : Sys σ} (hs : Iterates g i s) {q : ObjectProps}
    (hq : PreparedProps g q) (hsize : q.size < bitZeroShl g.maxObjectSc)
    (h5 : 5 ≤ g.maxObjectSc.toInt) (x : UInt64) :
    addAt (s.threads i).mc.stat.szHistogram (getSizeclass q.size).toNat x =
      .ok ((s.threads i).mc.stat.szHistogram.modify (getSizeclass q.size).toNat (· + x)) := by
  obtain ⟨-, h⟩ | ⟨hn, -⟩ :=
    addAt_result (s.threads i).mc.stat.szHistogram (getSizeclass q.size).toNat x
  · exact h
  · have hge := hq.size_ge
    have h0 : 0 < q.size := by
      rw [UInt64.lt_iff_toNat_lt, UInt64.toNat_zero]
      omega
    have hsc := getSizeclass_lt h0 hsize (by omega)
    rw [hs.szLength, GOptions.szEntries] at hn
    rw [Int32.toNatClampNeg] at hsc
    omega

/-- The start of an iteration. -/
theorem create_cases (hg : Ranges g) {i : Nat} {s : Sys σ} (hs : Iterates g i s) :
    ((CountWraps g R (s.threads i).mc.rand ∨ g.maxObjectSc.toInt < 5) ∧
        (create g R i s = .error .assertion ∨ create g R i s = .error .undefined)) ∨
      (¬ CountWraps g R (s.threads i).mc.rand ∧ 5 ≤ g.maxObjectSc.toInt ∧
        ((HasSlot g (s.threads i).mc ∧ ∃ s' c, create g R i s = .ok s' ∧
            (s'.threads i).pc = .placing c ∧
            (s'.threads i).mc.rand = R.next^[4] (s.threads i).mc.rand) ∨
          (¬ HasSlot g (s.threads i).mc ∧ create g R i s = .error .classBufferOverflow))) := by
  unfold create
  dsimp only
  rw [if_pos hs.runs_lt]
  obtain ⟨hw, hp⟩ | ⟨hw, p, hp, hd⟩ :=
    getRandomObjectProps_cases (R := R) hg (s.threads i).mc.rand
  · rw [hp]
    exact .inl ⟨.inl hw, .inl rfl⟩
  rw [hp]
  have hq := preparedProps_of_drawnProps hg hd
  simp only [bind, Except.bind]
  generalize prepareProps g p = q at hq ⊢
  simp only [addAt_ltHistogram hs hq]
  by_cases h5 : 5 ≤ g.maxObjectSc.toInt
  · have hsize := (size_lt_iff hg hq).mpr h5
    simp only [addAt_szHistogram hs hq hsize h5]
    refine .inr ⟨hw, h5, ?_⟩
    obtain ⟨hslot, c, d, mc', ha, hr⟩ | ⟨hslot, ha⟩ := allocateLSClass_cases_of_lt hq hsize i
      { (s.threads i).mc with
        rand := R.next^[4] (s.threads i).mc.rand
        stat := { (s.threads i).mc.stat with
          ltHistogram := (s.threads i).mc.stat.ltHistogram.modify q.liveness.toNat
            (· + q.numObjects.toUInt64)
          szHistogram := (s.threads i).mc.stat.szHistogram.modify (getSizeclass q.size).toNat
            (· + q.numObjects.toUInt64) } }
      (q.liveness + g.deallocationDelay.toUInt32)
    · refine .inl ⟨hslot, ?_⟩
      simp only [ha]
      refine ⟨_, c, rfl, ?_, ?_⟩
      · simp
      · simpa using hr
    · refine .inr ⟨hslot, ?_⟩
      simp only [ha]
  · have hsize := mt (size_lt_iff hg hq).mp h5
    refine .inl ⟨.inr (by omega), ?_⟩
    obtain ⟨-, hsz⟩ | ⟨-, hsz⟩ := addAt_result (s.threads i).mc.stat.szHistogram
      (getSizeclass q.size).toNat q.numObjects.toUInt64
    · simp only [hsz, allocateLSClass_error hsize]
      exact .inl trivial
    · simp only [hsz]
      exact .inr trivial

private theorem checksPass_iff_safeDraws (hg : Ranges g) {i : Nat} {s : Sys σ}
    (hs : Iterates g i s) : ChecksPass g R i s ↔ SafeDraws g R i s := by
  obtain ⟨hbad, hc⟩ | ⟨hw, h5, ⟨hslot, s', c, hc, hpc, hr⟩ | ⟨hslot, hc⟩⟩ :=
    create_cases (R := R) hg hs
  · constructor
    · intro h
      exact absurd hc (not_or.mpr ⟨h.create, h.indices⟩)
    · intro h
      have hsize := h.size
      exact absurd hbad (not_or.mpr ⟨h.count, by omega⟩)
  · have hplace : step g R i s' = place g R i c s' := by
      unfold step
      rw [hpc]
    have hiff := place_error_iff (g := g) (R := R) (i := i) (c := c) (s := s')
    rw [hr] at hiff
    constructor
    · intro h
      refine ⟨hw, h5, fun _ hsh ↦ ?_⟩
      have hne := h.place s' hc
      rw [hplace, Ne, hiff] at hne
      exact Nat.le_of_not_lt fun hlt ↦ hne ⟨hsh, hlt⟩
    · intro h
      refine ⟨by rw [hc]; nofun, by rw [hc]; nofun, fun t ht ↦ ?_⟩
      obtain rfl := Except.ok.inj (hc.symm.trans ht)
      rw [hplace, Ne, hiff]
      exact fun ⟨hsh, hlt⟩ ↦ absurd (h.receivers hslot hsh) (by omega)
  · constructor
    · intro _
      exact ⟨hw, h5, fun h ↦ absurd h hslot⟩
    · intro _
      refine ⟨by rw [hc]; nofun, by rw [hc]; nofun, fun t ht ↦ ?_⟩
      rw [hc] at ht
      cases ht

/-- Options under which every iteration is safe, whatever the generator state. -/
theorem safeDraws_of_options (hg : Ranges g) (h5 : 5 ≤ g.maxObjectSc.toInt)
    (hc : (g.maxObjectSc.toInt - g.minObjectSc.toInt + 1) *
      (g.maxLiveness.toInt - g.minLiveness.toInt + 1) < 2 ^ 16)
    (ht : 0 ≤ g.receivingThreadsRatio.toInt) (i : Nat) (s : Sys σ) : SafeDraws g R i s where
  count := by
    intro h
    have hl := (livenessAt_bounds (R := R) hg.draws (s.threads i).mc.rand).2
    have hs := (sizeclassAt_bounds (R := R) hg.draws (s.threads i).mc.rand).2
    have hle := Nat.le_of_dvd (Nat.mul_pos (Nat.add_one_pos _) (Nat.add_one_pos _)) h
    have ha : ((g.maxObjectSc.toNatClampNeg - sizeclassAt g R (s.threads i).mc.rand + 1 : Nat) :
        Int) ≤ g.maxObjectSc.toInt - g.minObjectSc.toInt + 1 := by
      simp only [Int32.toNatClampNeg]
      omega
    have hb : ((g.maxLiveness.toNatClampNeg - livenessAt g R (s.threads i).mc.rand + 1 : Nat) :
        Int) ≤ g.maxLiveness.toInt - g.minLiveness.toInt + 1 := by
      simp only [Int32.toNatClampNeg]
      omega
    have hm := Int.mul_le_mul ha hb (Int.natCast_nonneg _) (by omega)
    have hcast := Int.ofNat_le.mpr hle
    rw [Int.natCast_mul] at hcast
    omega
  size := h5
  receivers _ _ := removals_le ht

private theorem ranges_checked {o : GOptions} (ho : Ranges o) (c n : UInt64) :
    Ranges (o.checked c n) :=
  ⟨ho.liveness_pos, ho.liveness_le, ho.sc_nonneg, ho.sc_lt, ho.sc_le, ho.fixed_nonneg⟩

/-- For every generator state of an accepted configuration, the assertions of an iteration
hold exactly if the draws are safe. -/
theorem checksPass_iff {estimate : GlobalOptions → Option (UInt64 × UInt64)}
    {o p : GlobalOptions} (hm : o.mode = .acdc) (h : checkParams estimate o = some p)
    (ho : Ranges o.toGOptions) (R : Generator σ) {i : Nat} {s : Sys σ}
    (hs : Iterates p.toGOptions i s) :
    ChecksPass p.toGOptions R i s ↔ SafeDraws p.toGOptions R i s := by
  obtain ⟨c, n, hp⟩ := exists_of_checkParams hm h
  rw [hp] at hs ⊢
  exact checksPass_iff_safeDraws (ranges_checked ho c n) hs

/-- A thread that has passed the barrier. -/
def looping (g : GOptions) (R : Generator σ) (i : Nat) : Sys σ :=
  (runAcdc g R).put i { (runAcdc g R).threads i with pc := .looping }

/-- The defaults with given sizes. -/
theorem checksPass_iff_defaults :
    let g := { sizedOptions with maxTimeGap := 10 }.toGOptions
    ChecksPass g (schrage g) 0 (looping g (schrage g) 0) ↔
      SafeDraws g (schrage g) 0 (looping g (schrage g) 0) :=
  @checksPass_iff Int32 (fun _ ↦ none) sizedOptions { sizedOptions with maxTimeGap := 10 } rfl
    (by decide) ⟨by decide, by decide, by decide, by decide, by decide, by decide⟩ _ 0 _
    ⟨rfl, by decide, rfl, rfl⟩

/-- Options whose greatest size is that of `sizeof(BTObject)`. -/
def tinyOptions : GlobalOptions :=
  { sizedOptions with
    minObjectSc := 3
    maxObjectSc := 4 }

/-- Accepted options under which the allocation fails an assertion. -/
theorem not_forall_checksPass :
    ¬ ∀ (estimate : GlobalOptions → Option (UInt64 × UInt64)) (o p : GlobalOptions),
      o.mode = .acdc → checkParams estimate o = some p → Ranges o.toGOptions →
      ∀ (i : Nat) (s : Sys Int32), Iterates p.toGOptions i s →
        ChecksPass p.toGOptions (schrage p.toGOptions) i s := by
  intro h
  have ho : Ranges tinyOptions.toGOptions :=
    ⟨by decide, by decide, by decide, by decide, by decide, by decide⟩
  have hs : Iterates { tinyOptions with maxTimeGap := 10 }.toGOptions 0
      (looping { tinyOptions with maxTimeGap := 10 }.toGOptions
        (schrage { tinyOptions with maxTimeGap := 10 }.toGOptions) 0) :=
    ⟨rfl, by decide, rfl, rfl⟩
  have hc := h (fun _ ↦ none) tinyOptions { tinyOptions with maxTimeGap := 10 } rfl (by decide) ho
    0 _ hs
  have hr := ranges_checked ho 8 8
  have hsize := ((checksPass_iff_safeDraws (g := tinyOptions.toGOptions.checked 8 8) hr hs).mp
    hc).size
  exact absurd hsize (by decide)

end Acdc
