import Acdc.Random

/-!
# Properties of a collection

What `get_random_object_props` of `src/distribution.c:120–145` returns for every state of the
generator. The effects of the size-class and of the liveness are squares, and their product is an
`unsigned int`.
-/

namespace Acdc

variable {σ : Type}

/-- Ranges of the lifetimes and size-classes that are drawn. -/
structure DrawRanges (g : GOptions) : Prop where
  liveness_pos : 1 ≤ g.minLiveness.toInt
  liveness_le : g.minLiveness.toInt ≤ g.maxLiveness.toInt
  sc_nonneg : 0 ≤ g.minObjectSc.toInt
  sc_lt : g.minObjectSc.toInt < g.maxObjectSc.toInt
  sc_le : g.maxObjectSc.toInt ≤ 31

/-! ### Draws -/

/-- The liveness that a generator state leads to. -/
def livenessAt (g : GOptions) (R : Generator σ) (s : σ) : Nat :=
  (g.minLiveness.toInt +
    (R.rand (R.next s)).toInt % (g.maxLiveness.toInt - g.minLiveness.toInt + 1)).toNat

/-- The size-class that a generator state leads to, after the draw of a liveness. -/
def sizeclassAt (g : GOptions) (R : Generator σ) (s : σ) : Nat :=
  (g.minObjectSc.toInt +
    (R.rand (R.next (R.next s))).toInt % (g.maxObjectSc.toInt - g.minObjectSc.toInt)).toNat

/-- The number of objects of a size-class and a liveness, as a natural number. -/
def objectCount (g : GOptions) (sc lt : Nat) : Nat :=
  (g.maxObjectSc.toNatClampNeg - sc + 1) ^ 2 * (g.maxLiveness.toNatClampNeg - lt + 1) ^ 2

/-- The properties that a generator state leads to, with a number of objects that wraps. -/
structure DrawnAt (g : GOptions) (R : Generator σ) (s : σ) (p : ObjectProps) : Prop where
  liveness : p.liveness.toNat = livenessAt g R s
  size_ge : 2 ^ sizeclassAt g R s ≤ p.size.toNat
  size_lt : p.size.toNat < 2 ^ (sizeclassAt g R s + 1)
  num : p.numObjects.toNat = objectCount g (sizeclassAt g R s) (livenessAt g R s) % 2 ^ 32
  type : p.type = .list ∨ p.type = .btree

variable {g : GOptions} {R : Generator σ}

/-- A word that fits an `int` passes as an argument of that type. -/
theorem toInt_toInt32 {x : UInt64} (h : x.toNat < 2 ^ 31) :
    x.toUInt32.toInt32.toInt = x.toNat := by
  have hx : x.toUInt32 = UInt32.ofNat x.toNat := by
    rw [← UInt32.toNat_inj, UInt64.toNat_toUInt32, UInt32.toNat_ofNat']
  rw [hx]
  exact Int32.toInt_ofNat_of_lt h

/-- A power of two that fits a word. -/
theorem toNat_shl {x : Int32} {k : Nat} (hx : x.toInt = k) (hk : k < 64) :
    (bitZeroShl x).toNat = 2 ^ k := by
  rw [toNat_bitZeroShl (by omega), Int32.toNatClampNeg, hx, Int.toNat_natCast,
    Nat.mod_eq_of_lt hk]

/-- A size of a size-class below 31. -/
theorem getRandIntRange_shl (s : σ) {sc : Int32} {k : Nat} (hk : sc.toInt = k)
    (hlt : k < 31) :
    ∃ sz, getRandIntRange R s (bitZeroShl sc).toUInt32.toInt32
        (bitZeroShl (sc + 1) - 1).toUInt32.toInt32 = .ok (sz, R.next s) ∧
      2 ^ k ≤ sz.toUInt32.toNat ∧ sz.toUInt32.toNat < 2 ^ (k + 1) := by
  have ho : (1 : Int32).toInt = 1 := rfl
  have hk' : (sc + 1).toInt = (k + 1 : Nat) := by
    rw [Int32.toInt_add, ho, Int.bmod_eq_of_le (by omega) (by omega)]
    omega
  have hp : 2 ^ (k + 1) ≤ 2 ^ 31 := Nat.pow_le_pow_right (by decide) (by omega)
  have hq : 2 ^ (k + 1) = 2 * 2 ^ k := Nat.pow_succ'
  have hpos : 0 < 2 ^ k := Nat.two_pow_pos k
  have hlo := toNat_shl hk (by omega)
  have hhi := toNat_shl hk' (by omega)
  have hsub : (bitZeroShl (sc + 1) - 1).toNat = 2 ^ (k + 1) - 1 := by
    rw [UInt64.toNat_sub_of_le _ _ (by rw [UInt64.le_iff_toNat_le, hhi, UInt64.toNat_one]; omega),
      hhi, UInt64.toNat_one]
  have hl := toInt_toInt32 (show (bitZeroShl sc).toNat < 2 ^ 31 by omega)
  have hh := toInt_toInt32 (show (bitZeroShl (sc + 1) - 1).toNat < 2 ^ 31 by omega)
  rw [hlo] at hl
  rw [hsub] at hh
  obtain ⟨sz, hsz, -⟩ := getRandIntRange_eq_ok R s
    (show (bitZeroShl sc).toUInt32.toInt32.toInt ≤
      (bitZeroShl (sc + 1) - 1).toUInt32.toInt32.toInt by omega) (by omega)
  have hb := getRandIntRange_bounds R hsz (by omega)
  have hn := toNat_toUInt32 (show 0 ≤ sz.toInt by omega)
  exact ⟨sz, hsz, by omega, by omega⟩

/-- The draw of a type never fails, and draws a type with a builder. -/
theorem getRandomLifetimeSizeClassType_eq_ok (s : σ) :
    ∃ type, getRandomLifetimeSizeClassType g R s = .ok (type, R.next s) ∧
      (type = .list ∨ type = .btree) := by
  obtain ⟨r, hr, -⟩ := getRandIntRange_eq_ok R s (show (0 : Int32).toInt ≤ (100 : Int32).toInt by
    decide) (by decide)
  simp only [getRandomLifetimeSizeClassType, hr, bind, Except.bind, pure, Except.pure]
  split
  · exact ⟨.list, rfl, .inl rfl⟩
  · split
    · exact ⟨.btree, rfl, .inr rfl⟩
    · exact ⟨.list, rfl, .inl rfl⟩

/-- A product of two squares wraps at the size of the word. -/
theorem toNat_square_mul_square (a b : UInt32) :
    (a * a * (b * b)).toNat = (a.toNat * b.toNat) ^ 2 % 2 ^ 32 := by
  rw [UInt32.toNat_mul, UInt32.toNat_mul, UInt32.toNat_mul, ← Nat.mul_mod, Nat.pow_two,
    Nat.mul_mul_mul_comm]

/-- The distance of a drawn value from its maximum, plus one. -/
theorem toNat_effect {x : Int32} {y : UInt32} (h0 : 0 ≤ x.toInt)
    (h : (y.toNat : Int) ≤ x.toInt) :
    ((x.toUInt32 - y) + 1).toNat = x.toInt.toNat - y.toNat + 1 := by
  have hlt := x.toInt_lt
  have hx := toNat_toUInt32 h0
  rw [UInt32.toNat_add, UInt32.toNat_sub_of_le _ _ (by rw [UInt32.le_iff_toNat_le]; omega), hx]
  exact Nat.mod_eq_of_lt (show _ + 1 < 2 ^ 32 by omega)

/-- The product of the effects is the number of objects, but for a wrap of the word. -/
theorem toNat_numObjects {sc lt : UInt32} (h0 : 0 ≤ g.maxObjectSc.toInt)
    (hsc : (sc.toNat : Int) ≤ g.maxObjectSc.toInt) (h0' : 0 ≤ g.maxLiveness.toInt)
    (hlt : (lt.toNat : Int) ≤ g.maxLiveness.toInt) :
    (((g.maxObjectSc.toUInt32 - sc) + 1) * ((g.maxObjectSc.toUInt32 - sc) + 1) *
      (((g.maxLiveness.toUInt32 - lt) + 1) * ((g.maxLiveness.toUInt32 - lt) + 1))).toNat =
      objectCount g sc.toNat lt.toNat % 2 ^ 32 := by
  rw [toNat_square_mul_square, toNat_effect h0 hsc, toNat_effect h0' hlt, Nat.mul_pow]
  rfl

/-- The size-class of a size between two powers of two. -/
theorem log2_eq {n k : Nat} (hlo : 2 ^ k ≤ n) (hhi : n < 2 ^ (k + 1)) : n.log2 = k := by
  have hpos : 0 < 2 ^ k := Nat.two_pow_pos k
  exact (Nat.log2_eq_iff (by omega)).mpr ⟨hlo, hhi⟩

section Drawn

variable (hg : DrawRanges g)
include hg

/-- The liveness lies in its range. -/
theorem livenessAt_bounds (s : σ) :
    (livenessAt g R s : Int) = g.minLiveness.toInt +
        (R.rand (R.next s)).toInt % (g.maxLiveness.toInt - g.minLiveness.toInt + 1) ∧
      g.minLiveness.toInt ≤ livenessAt g R s ∧ livenessAt g R s ≤ g.maxLiveness.toInt := by
  have h1 := hg.liveness_pos
  have h2 := hg.liveness_le
  have hm := Int.emod_lt_of_pos (R.rand (R.next s)).toInt
    (show 0 < g.maxLiveness.toInt - g.minLiveness.toInt + 1 by omega)
  have hz := Int.emod_nonneg (R.rand (R.next s)).toInt
    (show g.maxLiveness.toInt - g.minLiveness.toInt + 1 ≠ 0 by omega)
  rw [livenessAt]
  omega

/-- The size-class lies in its range. -/
theorem sizeclassAt_bounds (s : σ) :
    (sizeclassAt g R s : Int) = g.minObjectSc.toInt +
        (R.rand (R.next (R.next s))).toInt % (g.maxObjectSc.toInt - g.minObjectSc.toInt) ∧
      g.minObjectSc.toInt ≤ sizeclassAt g R s ∧ sizeclassAt g R s < g.maxObjectSc.toInt := by
  have h1 := hg.sc_nonneg
  have h2 := hg.sc_lt
  have hm := Int.emod_lt_of_pos (R.rand (R.next (R.next s))).toInt
    (show 0 < g.maxObjectSc.toInt - g.minObjectSc.toInt by omega)
  have hz := Int.emod_nonneg (R.rand (R.next (R.next s))).toInt
    (show g.maxObjectSc.toInt - g.minObjectSc.toInt ≠ 0 by omega)
  rw [sizeclassAt]
  omega

theorem getRandomLiveness_eq_ok (s : σ) :
    ∃ lt, getRandomLiveness g R s = .ok (lt, R.next s) ∧ lt.toNat = livenessAt g R s := by
  have h1 := hg.liveness_pos
  have h2 := hg.liveness_le
  have hu := g.maxLiveness.toInt_lt
  obtain ⟨r, hr, he⟩ := getRandIntRange_eq_ok R s h2 (by omega)
  obtain ⟨hv, hb⟩ := livenessAt_bounds (R := R) hg s
  refine ⟨r.toUInt32, ?_, ?_⟩
  · simp only [getRandomLiveness, hr]
    rfl
  · rw [toNat_toUInt32 (by omega)]
    omega

/-- The least and the greatest size as powers of two. -/
theorem toNat_bounds :
    (bitZeroShl g.minObjectSc).toNat = 2 ^ g.minObjectSc.toNatClampNeg ∧
      (bitZeroShl g.maxObjectSc).toNat = 2 ^ g.maxObjectSc.toNatClampNeg := by
  have h1 := hg.sc_nonneg
  have h2 := hg.sc_lt
  have h3 := hg.sc_le
  have hmin : g.minObjectSc.toInt = g.minObjectSc.toNatClampNeg := by
    rw [Int32.toNatClampNeg]
    omega
  have hmax : g.maxObjectSc.toInt = g.maxObjectSc.toNatClampNeg := by
    rw [Int32.toNatClampNeg]
    omega
  exact ⟨toNat_shl hmin (by omega), toNat_shl hmax (by omega)⟩

/-- The sizes of the drawn size-class are among those of all size-classes. -/
theorem two_pow_bounds (s : σ) :
    2 ^ g.minObjectSc.toNatClampNeg ≤ 2 ^ sizeclassAt g R s ∧
      2 ^ (sizeclassAt g R s + 1) ≤ 2 ^ g.maxObjectSc.toNatClampNeg := by
  have hb := (sizeclassAt_bounds (R := R) hg s).2
  constructor
  · apply Nat.pow_le_pow_right (by decide)
    rw [Int32.toNatClampNeg]
    omega
  · apply Nat.pow_le_pow_right (by decide)
    rw [Int32.toNatClampNeg]
    omega

/-- The two assertions on the size-class and the two on the size hold, and the size is of the
size-class that was drawn. -/
theorem getRandomSize_eq_ok (s : σ) :
    ∃ sz, getRandomSize g R (R.next s) = .ok (sz, R.next (R.next (R.next s))) ∧
      2 ^ sizeclassAt g R s ≤ sz.toNat ∧ sz.toNat < 2 ^ (sizeclassAt g R s + 1) := by
  have h1 := hg.sc_nonneg
  have h2 := hg.sc_lt
  have h3 := hg.sc_le
  have ho : (1 : Int32).toInt = 1 := rfl
  have hm : (g.maxObjectSc - 1).toInt = g.maxObjectSc.toInt - 1 := by
    rw [Int32.toInt_sub, ho]
    exact Int.bmod_eq_of_le (by omega) (by omega)
  obtain ⟨sc, hsc, hv⟩ := getRandIntRange_eq_ok R (R.next s)
    (show g.minObjectSc.toInt ≤ (g.maxObjectSc - 1).toInt by omega) (by omega)
  obtain ⟨hd, hb⟩ := sizeclassAt_bounds (R := R) hg s
  have hrange : g.maxObjectSc.toInt - 1 - g.minObjectSc.toInt + 1 =
      g.maxObjectSc.toInt - g.minObjectSc.toInt := by omega
  rw [hm, hrange] at hv
  have hk : sc.toInt = sizeclassAt g R s := hv.trans hd.symm
  obtain ⟨hle, hge⟩ := two_pow_bounds (R := R) hg s
  generalize sizeclassAt g R s = k at hb hk hle hge ⊢
  obtain ⟨sz, hsz, hlo, hhi⟩ := getRandIntRange_shl (R := R) (R.next (R.next s)) hk (by omega)
  obtain ⟨hmin, hmax⟩ := toNat_bounds hg
  have ha1 : g.minObjectSc ≤ sc := Int32.le_iff_toInt_le.mpr (by omega)
  have ha2 : sc ≤ g.maxObjectSc - 1 := Int32.le_iff_toInt_le.mpr (by omega)
  have ha3 : bitZeroShl g.minObjectSc ≤ sz.toUInt32.toUInt64 := by
    rw [UInt64.le_iff_toNat_le, hmin, UInt32.toNat_toUInt64]
    omega
  have ha4 : sz.toUInt32.toUInt64 ≤ bitZeroShl g.maxObjectSc := by
    rw [UInt64.le_iff_toNat_le, hmax, UInt32.toNat_toUInt64]
    omega
  refine ⟨sz.toUInt32, ?_, hlo, hhi⟩
  simp only [getRandomSize, hsc, bind, Except.bind, assert, if_pos ha1, if_pos ha2, hsz,
    if_pos ha3, if_pos ha4, pure, Except.pure]

/-- Every state leads to properties. The assertion on the number of objects is the only one that
may fail. -/
theorem getRandomObjectProps_spec (s : σ) :
    ∃ p, DrawnAt g R s p ∧ getRandomObjectProps g R s =
      if 0 < p.numObjects then .ok (p, R.next^[4] s) else .error .assertion := by
  have h1 := hg.liveness_pos
  have h2 := hg.sc_nonneg
  have h3 := hg.sc_le
  obtain ⟨lt, hlt, hl⟩ := getRandomLiveness_eq_ok (R := R) hg s
  obtain ⟨sz, hsz, hlo, hhi⟩ := getRandomSize_eq_ok (R := R) hg s
  obtain ⟨type, htype, ht⟩ := getRandomLifetimeSizeClassType_eq_ok (g := g) (R := R)
    (R.next (R.next (R.next s)))
  have hlb := (livenessAt_bounds (R := R) hg s).2
  have hsb := (sizeclassAt_bounds (R := R) hg s).2
  have hsc : (getSizeclass sz.toUInt64).toNat = sizeclassAt g R s := by
    rw [getSizeclass, UInt32.toNat_toUInt64, log2_eq hlo hhi]
    exact UInt32.toNat_ofNat_of_lt' (show _ < 2 ^ 32 by omega)
  obtain ⟨num, hnum⟩ : ∃ num, num = ((g.maxObjectSc.toUInt32 - getSizeclass sz.toUInt64) + 1) *
      ((g.maxObjectSc.toUInt32 - getSizeclass sz.toUInt64) + 1) *
      (((g.maxLiveness.toUInt32 - lt) + 1) * ((g.maxLiveness.toUInt32 - lt) + 1)) := ⟨_, rfl⟩
  have hle := (two_pow_bounds (R := R) hg s).2
  have hsize : sz.toUInt64 ≤ bitZeroShl g.maxObjectSc := by
    rw [UInt64.le_iff_toNat_le, (toNat_bounds hg).2, UInt32.toNat_toUInt64]
    omega
  refine ⟨⟨sz.toUInt64, lt, num, type⟩, ⟨hl, ?_, ?_, ?_, ht⟩, ?_⟩
  · rwa [UInt32.toNat_toUInt64]
  · rwa [UInt32.toNat_toUInt64]
  · rw [hnum, toNat_numObjects (by omega) (by omega) (by omega) (by omega), hsc, hl]
  · simp only [getRandomObjectProps, hlt, hsz, bind, Except.bind, ← hnum, assert, if_pos hsize,
      htype]
    by_cases hn : 0 < num
    · rw [if_pos hn, if_pos hn]
      rfl
    · rw [if_neg hn, if_neg hn]

end Drawn

/-! ### Exact numbers of objects -/

/-- The properties are in range, and the number of objects is exact. -/
structure ExactProps (g : GOptions) (p : ObjectProps) : Prop where
  liveness_ge : g.minLiveness.toInt ≤ p.liveness.toNat
  liveness_le : p.liveness.toNat ≤ g.maxLiveness.toInt
  size_ge : 2 ^ g.minObjectSc.toNatClampNeg ≤ p.size.toNat
  size_le : p.size.toNat ≤ 2 ^ g.maxObjectSc.toNatClampNeg - 1
  num : p.numObjects.toNat = objectCount g p.size.toNat.log2 p.liveness.toNat
  num_pos : 0 < p.numObjects

/-- A state leads to properties in range with an exact number of objects. -/
def DrawsExactly (g : GOptions) (R : Generator σ) (s : σ) : Prop :=
  ∃ p s', getRandomObjectProps g R s = .ok (p, s') ∧ ExactProps g p

/-- Every state does, and the number of objects decreases with the size-class and the
liveness. -/
def CountsExactly (g : GOptions) (R : Generator σ) : Prop :=
  (∀ s, DrawsExactly g R s) ∧
    ∀ s t p q s' t', getRandomObjectProps g R s = .ok (p, s') →
      getRandomObjectProps g R t = .ok (q, t') → p.size.toNat.log2 ≤ q.size.toNat.log2 →
        p.liveness ≤ q.liveness → p.size.toNat.log2 < q.size.toNat.log2 ∨ p.liveness < q.liveness →
          q.numObjects < p.numObjects

theorem objectCount_pos (sc lt : Nat) : 0 < objectCount g sc lt :=
  Nat.mul_pos (Nat.pow_pos (Nat.succ_pos _)) (Nat.pow_pos (Nat.succ_pos _))

/-- The number of objects fits the word exactly if the product of the effects fits half of it. -/
theorem objectCount_lt_iff (sc lt : Nat) :
    objectCount g sc lt < 2 ^ 32 ↔
      (g.maxObjectSc.toNatClampNeg - sc + 1) * (g.maxLiveness.toNatClampNeg - lt + 1) < 2 ^ 16 := by
  rw [objectCount, ← Nat.mul_pow, show 2 ^ 32 = (2 ^ 16) ^ 2 from rfl,
    Nat.pow_lt_pow_iff_left (by decide)]

/-- The number of objects decreases. -/
theorem objectCount_lt {sc sc' lt lt' : Nat} (hsc : sc ≤ sc') (hlt : lt ≤ lt')
    (hsc' : sc' ≤ g.maxObjectSc.toNatClampNeg) (hlt' : lt' ≤ g.maxLiveness.toNatClampNeg)
    (h : sc < sc' ∨ lt < lt') : objectCount g sc' lt' < objectCount g sc lt := by
  rw [objectCount, objectCount, ← Nat.mul_pow, ← Nat.mul_pow]
  apply Nat.pow_lt_pow_left _ (by decide)
  obtain h | h := h
  · exact Nat.mul_lt_mul_of_lt_of_le (by omega) (by omega) (by omega)
  · exact Nat.mul_lt_mul_of_le_of_lt (by omega) (by omega) (by omega)

/-- The size-class of what a state leads to. -/
theorem DrawnAt.log2_size {s : σ} {p : ObjectProps} (h : DrawnAt g R s p) :
    p.size.toNat.log2 = sizeclassAt g R s :=
  log2_eq h.size_ge h.size_lt

/-- Smaller properties have more objects. -/
theorem ExactProps.num_lt {p q : ObjectProps} (hp : ExactProps g p) (hq : ExactProps g q)
    (hsc : p.size.toNat.log2 ≤ q.size.toNat.log2) (hlt : p.liveness ≤ q.liveness)
    (h : p.size.toNat.log2 < q.size.toNat.log2 ∨ p.liveness < q.liveness) :
    q.numObjects < p.numObjects := by
  have hl := hq.liveness_le
  have hs := hq.size_le
  have hpos : 0 < 2 ^ g.maxObjectSc.toNatClampNeg := Nat.two_pow_pos _
  have hge : 0 < 2 ^ g.minObjectSc.toNatClampNeg := Nat.two_pow_pos _
  have hlog : q.size.toNat.log2 < g.maxObjectSc.toNatClampNeg :=
    (Nat.log2_lt (by have := hq.size_ge; omega)).mpr (by omega)
  rw [UInt32.lt_iff_toNat_lt] at h ⊢
  rw [hp.num, hq.num]
  apply objectCount_lt hsc (UInt32.le_iff_toNat_le.mp hlt) (Nat.le_of_lt hlog) _ h
  rw [Int32.toNatClampNeg]
  omega

section Exact

variable (hg : DrawRanges g)
include hg

private theorem drawsExactly_iff (s : σ) : DrawsExactly g R s ↔
    objectCount g (sizeclassAt g R s) (livenessAt g R s) < 2 ^ 32 := by
  obtain ⟨p, hp, hr⟩ := getRandomObjectProps_spec (R := R) hg s
  constructor
  · intro ⟨q, s', hq, he⟩
    rw [hr] at hq
    split at hq
    · cases hq
      have hlt := p.numObjects.toNat_lt
      rwa [he.num, hp.log2_size, hp.liveness] at hlt
    · cases hq
  · intro hlt
    have hnum := hp.num
    rw [Nat.mod_eq_of_lt hlt] at hnum
    have hpos : 0 < p.numObjects := by
      rw [UInt32.lt_iff_toNat_lt, hnum]
      exact objectCount_pos _ _
    rw [if_pos hpos] at hr
    have hl := (livenessAt_bounds (R := R) hg s).2
    obtain ⟨hlo, hhi⟩ := two_pow_bounds (R := R) hg s
    have hsize := hp.size_lt
    refine ⟨p, _, hr, ?_, ?_, Nat.le_trans hlo hp.size_ge, by omega, ?_, hpos⟩
    · rw [hp.liveness]
      exact hl.1
    · rw [hp.liveness]
      exact hl.2
    · rw [hp.log2_size, hp.liveness, hnum]

omit hg in
private theorem drawsAt_zero : sizeclassAt g (schrage g) 0 = g.minObjectSc.toNatClampNeg ∧
    livenessAt g (schrage g) 0 = g.minLiveness.toNatClampNeg := by
  have hz : (schrage g).next 0 = 0 := show nextRand 0 = 0 by decide
  have hr : ((schrage g).rand 0).toInt = 0 := rfl
  constructor
  · rw [sizeclassAt, hz, hz, hr, Int.zero_emod, Int.add_zero, Int32.toNatClampNeg]
  · rw [livenessAt, hz, hr, Int.zero_emod, Int.add_zero, Int32.toNatClampNeg]

private theorem countsExactly_of_lt
    (h : objectCount g g.minObjectSc.toNatClampNeg g.minLiveness.toNatClampNeg < 2 ^ 32) :
    CountsExactly g R := by
  have hall (s : σ) : DrawsExactly g R s := by
    rw [drawsExactly_iff hg]
    have hl := (livenessAt_bounds (R := R) hg s).2
    have hs := (sizeclassAt_bounds (R := R) hg s).2
    rw [objectCount_lt_iff] at h ⊢
    refine Nat.lt_of_le_of_lt (Nat.mul_le_mul ?_ ?_) h
    · simp only [Int32.toNatClampNeg]
      omega
    · simp only [Int32.toNatClampNeg]
      omega
  have hexact {s s' : σ} {p : ObjectProps} (hp : getRandomObjectProps g R s = .ok (p, s')) :
      ExactProps g p := by
    obtain ⟨q, t, hq, he⟩ := hall s
    obtain ⟨rfl, -⟩ := Prod.mk.inj (Except.ok.inj (hq.symm.trans hp))
    exact he
  exact ⟨hall, fun s t p q s' t' hp hq hsc hlt h ↦ (hexact hp).num_lt (hexact hq) hsc hlt h⟩

/-- The number of objects is exact if and only if the product of the two effects fits 16 bits: for
a state, the effects of its draws, and for all states, those of the least size-class and
liveness. -/
theorem countsExactly_iff :
    (∀ s : σ, DrawsExactly g R s ↔
      (g.maxObjectSc.toNatClampNeg - sizeclassAt g R s + 1) *
        (g.maxLiveness.toNatClampNeg - livenessAt g R s + 1) < 2 ^ 16) ∧
    (CountsExactly g (schrage g) ↔
      (g.maxObjectSc.toNatClampNeg - g.minObjectSc.toNatClampNeg + 1) *
        (g.maxLiveness.toNatClampNeg - g.minLiveness.toNatClampNeg + 1) < 2 ^ 16) := by
  constructor
  · intro s
    rw [drawsExactly_iff hg, objectCount_lt_iff]
  · rw [← objectCount_lt_iff]
    constructor
    · intro h
      have h0 := (drawsExactly_iff hg 0).mp (h.1 0)
      rwa [drawsAt_zero.1, drawsAt_zero.2] at h0
    · exact countsExactly_of_lt hg

end Exact

/-- The defaults. -/
theorem countsExactly_iff_defaults :
    CountsExactly GOptions.setDefaultParams (schrage GOptions.setDefaultParams) := by
  have hg : DrawRanges GOptions.setDefaultParams :=
    ⟨by decide, by decide, by decide, by decide, by decide⟩
  exact (countsExactly_iff (R := schrage GOptions.setDefaultParams) hg).2.mpr (by decide)

/-- With 32769 lifetimes the greatest collection has 262148 objects instead of 4295229444. -/
theorem not_forall_countsExactly :
    ¬ ∀ g : GOptions, DrawRanges g → CountsExactly g (schrage g) := by
  intro h
  have hg : DrawRanges { GOptions.setDefaultParams with maxLiveness := 32769, maxObjectSc := 5 } :=
    ⟨by decide, by decide, by decide, by decide, by decide⟩
  have h0 := (drawsExactly_iff hg 0).mp ((h _ hg).1 0)
  rw [drawsAt_zero.1, drawsAt_zero.2] at h0
  exact absurd h0 (by decide)

end Acdc
