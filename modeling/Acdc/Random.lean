import Acdc.Base.Truncation
import Acdc.Options
import Mathlib.Data.List.Perm.Basic
import Mathlib.Data.List.Range

/-!
# Random numbers and the properties drawn from them

The pseudo random number generator and the draws of `src/distribution.c`. The draws are
functions of a generator state, so that every outcome of the draws is covered by the
choice of the generator; `schrage` is the generator of the program.
`get_sizeclass` (`src/memory.c:58–60`) is taken as the floor of the binary logarithm.
-/

namespace Acdc

/-- A generator of nonnegative `int` values, with one initial state for each thread. -/
structure Generator (σ : Type) where
  seed : Nat → σ
  next : σ → σ
  rand : σ → Int32
  rand_nonneg : ∀ s, 0 ≤ (rand (next s)).toInt

/-- Schrage's method for the minimal standard generator; `src/distribution.c:16–23`. -/
def nextRand (rand : Int32) : Int32 :=
  let hi := rand / 127773
  let lo := rand % 127773
  let rand := 16807 * lo - 2836 * hi
  if rand < 0 then rand + 2147483647 else rand

/-- The operands of Schrage's difference are exact. -/
theorem toInt_operands (x : Int32) :
    (x / 127773).toInt = x.toInt.tdiv 127773 ∧ (x % 127773).toInt = x.toInt.tmod 127773 ∧
      (16807 * (x % 127773)).toInt = 16807 * x.toInt.tmod 127773 ∧
        (2836 * (x / 127773)).toInt = 2836 * x.toInt.tdiv 127773 := by
  have hl := x.le_toInt
  have hu := x.toInt_lt
  obtain ⟨hs, hp, hn⟩ := Truncation.tdiv_tmod_spec x.toInt 127773 (by omega)
  have hc : (127773 : Int32).toInt = 127773 := rfl
  have ha : (16807 : Int32).toInt = 16807 := rfl
  have hr : (2836 : Int32).toInt = 2836 := rfl
  have hd : (x / 127773).toInt = x.toInt.tdiv 127773 := by
    rw [Int32.toInt_div, hc]
    exact Int.bmod_eq_of_le (by omega) (by omega)
  refine ⟨hd, by rw [Int32.toInt_mod, hc], ?_, ?_⟩
  · rw [Int32.toInt_mul, Int32.toInt_mod, hc, ha]
    exact Int.bmod_eq_of_le (by omega) (by omega)
  · rw [Int32.toInt_mul, hd, hr]
    exact Int.bmod_eq_of_le (by omega) (by omega)

/-- Schrage's difference is computed without overflow and exceeds the least `int`. -/
theorem toInt_difference (x : Int32) :
    (16807 * (x % 127773) - 2836 * (x / 127773)).toInt =
        16807 * x.toInt.tmod 127773 - 2836 * x.toInt.tdiv 127773 ∧
      -2147464004 ≤ 16807 * x.toInt.tmod 127773 - 2836 * x.toInt.tdiv 127773 ∧
      16807 * x.toInt.tmod 127773 - 2836 * x.toInt.tdiv 127773 < 2 ^ 31 := by
  have hl := x.le_toInt
  have hu := x.toInt_lt
  obtain ⟨hs, hp, hn⟩ := Truncation.tdiv_tmod_spec x.toInt 127773 (by omega)
  obtain ⟨-, -, hm, hq⟩ := toInt_operands x
  refine ⟨?_, by omega, by omega⟩
  rw [Int32.toInt_sub, hm, hq]
  exact Int.bmod_eq_of_le (by omega) (by omega)

/-- Every successor state of the generator is nonnegative, from every `int` state. -/
theorem nextRand_nonneg (x : Int32) : 0 ≤ (nextRand x).toInt := by
  obtain ⟨he, hb, -⟩ := toInt_difference x
  have hz : (0 : Int32).toInt = 0 := rfl
  have hm : (2147483647 : Int32).toInt = 2147483647 := rfl
  simp only [nextRand, Int32.lt_iff_toInt_lt, hz]
  split
  · next h =>
    rw [Int32.toInt_add, hm, Int.bmod_eq_of_le (by omega) (by omega)]
    omega
  · next h => omega

/-- The generator of the program, seeded with `seed + thread_id`; `src/acdc.c:193`. -/
def schrage (g : GOptions) : Generator Int32 where
  seed i := g.seed + Int32.ofNat i
  next := nextRand
  rand := id
  rand_nonneg := nextRand_nonneg

variable {σ : Type} (g : GOptions) (R : Generator σ)

/-- A random `int` between two bounds; `src/distribution.c:25–31`. -/
def getRandIntRange (s : σ) (lo hi : Int32) : Except Stop (Int32 × σ) :=
  if hi < lo then .error .assertion
  else
    let s := R.next s
    let range := (hi - lo) + 1
    let smallRand := R.rand s % range
    .ok (lo + smallRand, s)

/-- Whether a collection is shared; `src/distribution.c:35–40`. -/
def getSharingDist (s : σ) : Except Stop (Bool × σ) :=
  if g.sharedObjects = 0 then .ok (false, s)
  else do
    let (r, s) ← getRandIntRange R s 0 100
    return (decide (r < g.sharedObjectsRatio), s)

/-- `src/distribution.c:42–46`. -/
def getRandomLiveness (s : σ) : Except Stop (UInt32 × σ) := do
  let (r, s) ← getRandIntRange R s g.minLiveness g.maxLiveness
  return (r.toUInt32, s)

/-- The power of two `BIT_ZERO << sc`. -/
def bitZeroShl (sc : Int32) : UInt64 := 1 <<< sc.toInt64.toUInt64

/-- `assert` of the C library. -/
def assert (p : Prop) [Decidable p] : Except Stop Unit :=
  if p then .ok () else .error .assertion

/-- `src/distribution.c:48–64`. -/
def getRandomSize (s : σ) : Except Stop (UInt32 × σ) := do
  let (sc, s) ← getRandIntRange R s g.minObjectSc (g.maxObjectSc - 1)
  assert (g.minObjectSc ≤ sc)
  assert (sc ≤ g.maxObjectSc - 1)
  let (sz, s) ← getRandIntRange R s (bitZeroShl sc).toUInt32.toInt32
    (bitZeroShl (sc + 1) - 1).toUInt32.toInt32
  assert (bitZeroShl g.minObjectSc ≤ sz.toUInt32.toUInt64)
  assert (sz.toUInt32.toUInt64 ≤ bitZeroShl g.maxObjectSc)
  return (sz.toUInt32, s)

/-- Implementation types of collections; `src/acdc.h:138–145`. -/
inductive LifetimeSizeClassType where
  | list
  | btree
  | falseSharing
  | optimalList
  | optimalBtree
  | optimalFalseSharing
  deriving DecidableEq, Repr

/-- `src/distribution.c:67–78`. -/
def getRandomLifetimeSizeClassType (s : σ) : Except Stop (LifetimeSizeClassType × σ) := do
  let (r, s) ← getRandIntRange R s 0 100
  if r.toUInt32 < g.listBasedRatio.toUInt32 then return (.list, s)
  else if r.toUInt32 < (g.listBasedRatio + g.btreeBasedRatio).toUInt32 then return (.btree, s)
  else return (.list, s)

/-- Exchange of two array elements by three exclusive ors; `src/distribution.c:80–86`. -/
def swapInt (a : List Nat) (i j : Nat) : List Nat :=
  if i = j then a
  else
    let a := a.set i (a.getD i 0 ^^^ a.getD j 0)
    let a := a.set j (a.getD j 0 ^^^ a.getD i 0)
    a.set i (a.getD i 0 ^^^ a.getD j 0)

/-- Virtual removal of `m` random elements from the first `sz` elements of an array;
the second loop of `src/distribution.c:107–116`. -/
def removeRandomThreads : Nat → σ → List Nat → Nat → Except Stop (List Nat × Nat × σ)
  | 0, s, a, sz => .ok (a, sz, s)
  | m + 1, s, a, sz => do
    let (r, s) ← getRandIntRange R s 0 (Int32.ofNat sz - 1)
    removeRandomThreads m s (swapInt a r.toNatClampNeg (sz - 1)) (sz - 1)

/-- Random choice of the receiving threads; `src/distribution.c:89–117`. The result is the
used prefix of the array. A zero divisor leaves the behaviour undefined. -/
def getRandomThreadSelection (s : σ) : Except Stop (List Nat × σ) :=
  if g.receivingThreadsRatio = 0 ∨ 100 / g.receivingThreadsRatio = 0 then .error .undefined
  else do
    let numberOfSharingThreads := g.numThreads / (100 / g.receivingThreadsRatio)
    let (a, sz, s) ← removeRandomThreads R (g.numThreads - numberOfSharingThreads).toNatClampNeg
      s (List.range g.threads) g.threads
    return (a.take sz, s)

/-- `src/memory.c:58–60`. -/
def getSizeclass (size : UInt64) : UInt32 := UInt32.ofNat (Nat.log2 size.toNat)

/-- The random properties of one collection. -/
structure ObjectProps where
  size : UInt64
  liveness : UInt32
  numObjects : UInt32
  type : LifetimeSizeClassType
  deriving DecidableEq, Repr

/-- `src/distribution.c:120–145`. The effects are squares of `unsigned int`. -/
def getRandomObjectProps (s : σ) : Except Stop (ObjectProps × σ) := do
  let (lt, s) ← getRandomLiveness g R s
  let (sz, s) ← getRandomSize g R s
  let sc := getSizeclass sz.toUInt64
  let effectOfSizeclass := (g.maxObjectSc.toUInt32 - sc) + 1
  let effectOfSizeclass := effectOfSizeclass * effectOfSizeclass
  let effectOfLiveness := (g.maxLiveness.toUInt32 - lt) + 1
  let effectOfLiveness := effectOfLiveness * effectOfLiveness
  let numObjects := effectOfSizeclass * effectOfLiveness
  assert (0 < numObjects)
  assert (sz.toUInt64 ≤ bitZeroShl g.maxObjectSc)
  let (type, s) ← getRandomLifetimeSizeClassType g R s
  return (⟨sz.toUInt64, lt, numObjects, type⟩, s)

/-- A power of two whose exponent is not negative. -/
theorem toNat_bitZeroShl {sc : Int32} (h : 0 ≤ sc.toInt) :
    (bitZeroShl sc).toNat = 2 ^ (sc.toNatClampNeg % 64) := by
  have hle : 0 ≤ sc.toInt64 := by
    rw [Int64.le_iff_toInt_le, Int32.toInt_toInt64]
    exact h
  have hc : sc.toInt64.toUInt64.toNat = sc.toNatClampNeg := by
    rw [Int64.toNat_toUInt64_of_le hle, Int64.toNatClampNeg, Int32.toInt_toInt64,
      Int32.toNatClampNeg]
  have hm : sc.toNatClampNeg % 64 < 64 := Nat.mod_lt _ (by decide)
  rw [bitZeroShl, UInt64.toNat_shiftLeft, hc, UInt64.toNat_one, Nat.shiftLeft_eq, Nat.one_mul]
  exact Nat.mod_eq_of_lt (Nat.pow_lt_pow_right (by decide) hm)

/-- A draw from a range whose length fits an `int`. -/
theorem getRandIntRange_eq_ok (s : σ) {lo hi : Int32} (hle : lo.toInt ≤ hi.toInt)
    (hr : hi.toInt - lo.toInt < 2 ^ 31 - 1) :
    ∃ r, getRandIntRange R s lo hi = .ok (r, R.next s) ∧
      r.toInt = lo.toInt + (R.rand (R.next s)).toInt % (hi.toInt - lo.toInt + 1) := by
  refine ⟨_, if_neg (by rw [Int32.lt_iff_toInt_lt]; omega), ?_⟩
  have hb := lo.le_toInt
  have hu := hi.toInt_lt
  have ho : (1 : Int32).toInt = 1 := rfl
  have hd : (hi - lo).toInt = hi.toInt - lo.toInt := by
    rw [Int32.toInt_sub]
    exact Int.bmod_eq_of_le (by omega) (by omega)
  have hg : (hi - lo + 1).toInt = hi.toInt - lo.toInt + 1 := by
    rw [Int32.toInt_add, hd, ho]
    exact Int.bmod_eq_of_le (by omega) (by omega)
  have hm := Int.emod_lt_of_pos (R.rand (R.next s)).toInt
    (show 0 < hi.toInt - lo.toInt + 1 by omega)
  have hz := Int.emod_nonneg (R.rand (R.next s)).toInt
    (show hi.toInt - lo.toInt + 1 ≠ 0 by omega)
  rw [Int32.toInt_add, Int32.toInt_mod, hg, Int.tmod_eq_emod_of_nonneg (R.rand_nonneg s)]
  exact Int.bmod_eq_of_le (by omega) (by omega)

/-- A successful draw lies between its bounds when their distance fits an `int`. -/
theorem getRandIntRange_bounds {s s' : σ} {lo hi r : Int32}
    (h : getRandIntRange R s lo hi = .ok (r, s')) (hr : hi.toInt - lo.toInt < 2 ^ 31 - 1) :
    lo.toInt ≤ r.toInt ∧ r.toInt ≤ hi.toInt := by
  by_cases hlt : hi < lo
  · simp only [getRandIntRange, if_pos hlt] at h
    cases h
  · have hle : lo.toInt ≤ hi.toInt := by
      rw [Int32.lt_iff_toInt_lt] at hlt
      omega
    obtain ⟨r', hd, hv⟩ := getRandIntRange_eq_ok R s hle hr
    obtain ⟨rfl, -⟩ := Prod.mk.inj (Except.ok.inj (h.symm.trans hd))
    have hm := Int.emod_lt_of_pos (R.rand (R.next s)).toInt
      (show 0 < hi.toInt - lo.toInt + 1 by omega)
    have hz := Int.emod_nonneg (R.rand (R.next s)).toInt
      (show hi.toInt - lo.toInt + 1 ≠ 0 by omega)
    omega

/-- The three exclusive ors exchange two elements. -/
theorem swapInt_eq {a : List Nat} {i j : Nat} (hi : i < a.length) (hj : j < a.length) :
    swapInt a i j = (a.set i a[j]).set j a[i] := by
  unfold swapInt
  split
  · next h =>
    subst h
    simp
  · next h =>
    have hx : a[j] ^^^ (a[i] ^^^ a[j]) = a[i] := by
      rw [Nat.xor_comm a[i], ← Nat.xor_assoc, Nat.xor_self, Nat.zero_xor]
    have hy : a[i] ^^^ a[j] ^^^ a[i] = a[j] := by
      rw [Nat.xor_comm a[i], Nat.xor_assoc, Nat.xor_self, Nat.xor_zero]
    simp only [List.getD_eq_getElem?_getD, List.length_set, hi, hj, List.getElem?_eq_getElem,
      Option.getD_some, List.getElem_set, h, Ne.symm h, ite_true, ite_false, hx, hy]
    rw [List.set_comm _ _ (Ne.symm h), List.set_set]

/-- An exchange permutes the array. -/
theorem swapInt_perm {a : List Nat} {i j : Nat} (hi : i < a.length) (hj : j < a.length) :
    (swapInt a i j).Perm a := by
  rw [swapInt_eq hi hj]
  exact List.set_set_perm hi hj

/-- No position can be drawn from no elements. -/
theorem getRandIntRange_no_position (s : σ) :
    getRandIntRange R s 0 (Int32.ofNat 0 - 1) = .error .assertion :=
  if_pos (by decide)

/-- The draw of a position from `sz` elements. -/
theorem getRandIntRange_position (s : σ) {sz : Nat} (h0 : 0 < sz) (hb : sz < 2 ^ 31) :
    ∃ r, getRandIntRange R s 0 (Int32.ofNat sz - 1) = .ok (r, R.next s) ∧
      0 ≤ r.toInt ∧ r.toInt < sz ∧ r.toNatClampNeg < sz := by
  have hz : (0 : Int32).toInt = 0 := rfl
  have ho : (1 : Int32).toInt = 1 := rfl
  have hn : (Int32.ofNat sz - 1).toInt = sz - 1 := by
    rw [Int32.toInt_sub, Int32.toInt_ofNat_of_lt hb, ho]
    exact Int.bmod_eq_of_le (by omega) (by omega)
  obtain ⟨r, hr, -⟩ := getRandIntRange_eq_ok R s
    (show (0 : Int32).toInt ≤ (Int32.ofNat sz - 1).toInt by omega) (by omega)
  obtain ⟨hlo, hhi⟩ := getRandIntRange_bounds R hr (by omega)
  refine ⟨r, hr, by omega, by omega, ?_⟩
  rw [Int32.toNatClampNeg]
  omega

/-- Virtual removal permutes the array and shortens the used prefix by its count. -/
theorem removeRandomThreads_spec {m : Nat} {s s' : σ} {a a' : List Nat} {sz sz' : Nat}
    (h : removeRandomThreads R m s a sz = .ok (a', sz', s')) (hs : sz ≤ a.length)
    (hb : sz < 2 ^ 31) : a'.Perm a ∧ sz' + m = sz := by
  induction m generalizing s a sz with
  | zero =>
    simp only [removeRandomThreads, Except.ok.injEq, Prod.mk.injEq] at h
    obtain ⟨rfl, rfl, -⟩ := h
    exact ⟨.refl _, rfl⟩
  | succ m ih =>
    rw [removeRandomThreads] at h
    obtain rfl | h0 := Nat.eq_zero_or_pos sz
    · rw [getRandIntRange_no_position] at h
      cases h
    · obtain ⟨r, hr, -, -, hi⟩ := getRandIntRange_position R s h0 hb
      rw [hr] at h
      have hp := swapInt_perm (a := a) (i := r.toNatClampNeg) (j := sz - 1)
        (by omega) (by omega)
      obtain ⟨hq, he⟩ := ih h (by rw [hp.length_eq]; omega) (by omega)
      exact ⟨hq.trans hp, by omega⟩

private theorem selection_spec {s s' : σ} {rs : List Nat}
    (h : getRandomThreadSelection g R s = .ok (rs, s')) :
    ∃ (a : List Nat) (sz : Nat), rs = a.take sz ∧ a.Perm (List.range g.threads) ∧
      sz + (g.numThreads - g.numThreads / (100 / g.receivingThreadsRatio)).toNatClampNeg =
        g.threads := by
  unfold getRandomThreadSelection at h
  split at h
  · cases h
  · cases hm : removeRandomThreads R
      (g.numThreads - g.numThreads / (100 / g.receivingThreadsRatio)).toNatClampNeg s
      (List.range g.threads) g.threads with
    | error e => simp only [hm] at h; cases h
    | ok p =>
      obtain ⟨a, sz, t⟩ := p
      simp only [hm] at h
      obtain ⟨rfl, -⟩ := Prod.mk.inj (Except.ok.inj h)
      obtain ⟨hp, hs⟩ := removeRandomThreads_spec R hm (by simp) g.threads_lt
      exact ⟨a, sz, rfl, hp, hs⟩

/-- The receivers of a shared collection are threads. -/
theorem lt_threads_of_mem_selection {s s' : σ} {rs : List Nat}
    (h : getRandomThreadSelection g R s = .ok (rs, s')) {r : Nat} (hr : r ∈ rs) :
    r < g.threads := by
  obtain ⟨a, sz, rfl, hp, -⟩ := selection_spec g R h
  exact List.mem_range.mp (hp.mem_iff.mp (List.mem_of_mem_take hr))

/-- There are at most as many receivers as threads. -/
theorem length_selection_le {s s' : σ} {rs : List Nat}
    (h : getRandomThreadSelection g R s = .ok (rs, s')) : rs.length ≤ g.threads := by
  obtain ⟨a, sz, rfl, hp, -⟩ := selection_spec g R h
  rw [List.length_take, hp.length_eq, List.length_range]
  exact Nat.min_le_right _ _

/-- The divisor of the number of receivers is the truncated quotient of 100. -/
theorem toInt_hundred_div {t : Int32} (h0 : 0 < t.toInt) :
    (100 / t).toInt = 100 / t.toInt := by
  have hc : (100 : Int32).toInt = 100 := rfl
  have hl : 0 ≤ 100 / t.toInt := Int.ediv_nonneg (by omega) (by omega)
  have hu : 100 / t.toInt ≤ 100 := Int.ediv_le_self _ (by omega)
  rw [Int32.toInt_div, hc, Int.tdiv_eq_ediv_of_nonneg (by omega)]
  exact Int.bmod_eq_of_le (by omega) (by omega)

/-- The truncated quotient of 100 by a number vanishes exactly above 100. -/
theorem hundred_div_eq_zero_iff {x : Int32} (hx : x ≠ 0) :
    100 / x = 0 ↔ 100 < x.toInt.natAbs := by
  have hc : (100 : Int32).toInt = 100 := rfl
  have hz : x.toInt ≠ 0 := fun h ↦ hx (Int32.toInt_inj.mp h)
  have hle : (Int.tdiv 100 x.toInt).natAbs ≤ 100 := by
    rw [Int.natAbs_tdiv]
    exact Nat.div_le_self 100 _
  rw [← Int32.toInt_inj, Int32.toInt_div, hc, Int.bmod_eq_of_le (by omega) (by omega)]
  constructor
  · intro (h : Int.tdiv 100 x.toInt = 0)
    have hq := congrArg Int.natAbs h
    rw [Int.natAbs_tdiv] at hq
    exact (Nat.div_eq_zero_iff_lt (by omega)).mp hq
  · intro h
    apply Int.natAbs_eq_zero.mp
    rw [Int.natAbs_tdiv]
    exact Nat.div_eq_of_lt h

/-- With a percentage as ratio all threads but the doubly truncated quotient are removed. -/
theorem toNatClampNeg_removals (hn : 0 ≤ g.numThreads.toInt)
    (h0 : 0 < g.receivingThreadsRatio.toInt) :
    (g.numThreads - g.numThreads / (100 / g.receivingThreadsRatio)).toNatClampNeg =
      g.threads - g.threads / (100 / g.receivingThreadsRatio.toNatClampNeg) := by
  have ht : g.numThreads.toInt = g.threads := by
    simp only [GOptions.threads, Int32.toNatClampNeg]
    omega
  have hlt := g.threads_lt
  have hd := toInt_hundred_div h0
  have hT : g.receivingThreadsRatio.toInt = g.receivingThreadsRatio.toNatClampNeg := by
    simp only [Int32.toNatClampNeg]
    omega
  have hle := Nat.div_le_self g.threads (100 / g.receivingThreadsRatio.toNatClampNeg)
  have hc : (g.threads : Int) / (100 / (g.receivingThreadsRatio.toNatClampNeg : Int)) =
      (g.threads / (100 / g.receivingThreadsRatio.toNatClampNeg) : Nat) := rfl
  generalize g.threads / (100 / g.receivingThreadsRatio.toNatClampNeg) = k at hle hc ⊢
  have hq : (g.numThreads / (100 / g.receivingThreadsRatio)).toInt = k := by
    rw [Int32.toInt_div, hd, ht, Int.tdiv_eq_ediv_of_nonneg (by omega), hT, hc]
    exact Int.bmod_eq_of_le (by omega) (by omega)
  rw [Int32.toNatClampNeg, Int32.toInt_sub, hq, ht, Int.bmod_eq_of_le (by omega) (by omega)]
  omega

/-- With a percentage as ratio the number of receivers is the doubly truncated quotient. -/
theorem length_selection {s s' : σ} {rs : List Nat}
    (h : getRandomThreadSelection g R s = .ok (rs, s')) (hn : 0 ≤ g.numThreads.toInt)
    (h0 : 0 < g.receivingThreadsRatio.toInt) :
    rs.length = g.threads / (100 / g.receivingThreadsRatio.toNatClampNeg) := by
  obtain ⟨a, sz, rfl, hp, hs⟩ := selection_spec g R h
  have hle := Nat.div_le_self g.threads (100 / g.receivingThreadsRatio.toNatClampNeg)
  rw [toNatClampNeg_removals g hn h0] at hs
  rw [List.length_take, hp.length_eq, List.length_range]
  omega

end Acdc
