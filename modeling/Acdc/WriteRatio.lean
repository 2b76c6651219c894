import Acdc.Collections
import Mathlib.Algebra.Order.Floor.Div

/-!
# Write access ratio

`write_access_ratio` is documented as the share of the elements that a traversal writes:
with 20 every fifth one (`src/lifetime-size-classes.c:84–87`). `traverse_list` counts its
visits. The tree recursions start a counter in each call, at `src/lifetime-size-classes.c:434`
and `:450`, so that they ask `write_ith_element` for element 0 at every node. An object is written
by calls of `write_object`, of which there are `write_iterations`.
-/

namespace Acdc.Objects

open Fallible Heap

/-- A traversal returns, with these visits. -/
def Traverses (g : GOptions) (fuel : Nat) (d : LSClass) (start : UInt64) (h : Heap)
    (vs : List Visit) : Prop :=
  ∃ h', traverseLSClass g fuel d start h = .ok h' ∧ visitLSClass g fuel d start h = .ok (vs, h')

/-- Every `k`-th visit writes its object, beginning with the first one. -/
structure WritesEvery (k : Nat) (vs : List Visit) : Prop where
  every : ∀ i v, vs[i]? = some v → (v.written = true ↔ k ∣ i)
  count : vs.countP Visit.written = vs.length ⌈/⌉ k

/-- The number of visits from one written object to the next one. -/
def writePeriod (g : GOptions) : Nat := 100 / g.writeAccessRatio.toNatClampNeg

/-- The traversals of a collection keep to the ratio: they write at all, and they count their
visits, and these fit an `int`, or the ratio makes them write every object anyway, or there is one
object only. -/
def KeepsRatio (g : GOptions) (d : LSClass) : Prop :=
  0 < g.writeIterations.toInt ∧
    if d.type.countsVisits then d.numObjects.toNat < 2 ^ 31
    else writePeriod g = 1 ∨ d.numObjects.toNat = 1

instance (g : GOptions) (d : LSClass) : Decidable (KeepsRatio g d) := by
  unfold KeepsRatio
  infer_instance

variable {g : GOptions} {d : LSClass} {start : UInt64} {objs : List UInt64} {h : Heap}
  {fuel k : Nat} {vs : List Visit}

/-- An object is written if it is chosen and the writes have iterations. -/
theorem written_iff {q : UInt64} {i : Nat} :
    (⟨q, writesTo g i⟩ : Visit).written = true ↔
      writesIth g i = true ∧ 0 < g.writeIterations.toInt := by
  rw [Visit.written, decide_eq_true_eq, writesTo]
  split
  · next h =>
    rw [and_iff_right h]
    exact Int.lt_toNat
  · next h => simp [h]

/-- The visits are those of a computation that returns. -/
theorem traverses_iff :
    Traverses g fuel d start h vs ↔ ∃ h', visitLSClass g fuel d start h = .ok (vs, h') := by
  constructor
  · intro ht
    obtain ⟨h', -, hv⟩ := ht
    exact ⟨h', hv⟩
  · intro hv
    obtain ⟨h', hv⟩ := hv
    refine ⟨h', ?_, hv⟩
    rw [← map_visitLSClass, hv]
    rfl

private theorem countP_dvd (hk : 0 < k) (n : Nat) :
    (List.range n).countP (fun i ↦ decide (k ∣ i)) = n ⌈/⌉ k := by
  induction n with
  | zero => exact (zero_ceilDiv k).symm
  | succ n ih =>
    have hsucc : n + 1 + k - 1 = n + k - 1 + 1 := by omega
    have hadd : n + k - 1 + 1 = n + k := by omega
    rw [List.range_succ, List.countP_append, ih, List.countP_singleton,
      Nat.ceilDiv_eq_add_pred_div, Nat.ceilDiv_eq_add_pred_div, hsucc, Nat.succ_div, hadd]
    simp only [Nat.dvd_add_self_right, decide_eq_true_eq]

section

variable (h1 : 1 ≤ g.writeAccessRatio.toInt) (h99 : g.writeAccessRatio.toInt ≤ 99)
include h1 h99

theorem writePeriod_pos : 0 < writePeriod g := by
  apply Nat.div_pos
  · simp only [Int32.toNatClampNeg]
    omega
  · simp only [Int32.toNatClampNeg]
    omega

/-- The choice of `write_ith_element` for a counter that fits an `int`. -/
theorem writesIth_iff {i : Nat} (hi : i < 2 ^ 31) :
    writesIth g i = true ↔ writePeriod g ∣ i := by
  have hz : (0 : Int32).toInt = 0 := rfl
  have hc : (100 : Int32).toInt = 100 := rfl
  have hw0 : g.writeAccessRatio ≠ 0 := by
    rw [Ne, ← Int32.toInt_inj, hz]
    omega
  have hw100 : ¬ 100 ≤ g.writeAccessRatio := by
    rw [Int32.le_iff_toInt_le, hc]
    omega
  have hw : g.writeAccessRatio.toInt = g.writeAccessRatio.toNatClampNeg := by
    simp only [Int32.toNatClampNeg]
    omega
  have hd : (100 / g.writeAccessRatio).toInt = writePeriod g := by
    rw [toInt_hundred_div (by omega), hw]
    rfl
  have hp := writePeriod_pos h1 h99
  have hd0 : 100 / g.writeAccessRatio ≠ 0 := by
    rw [Ne, ← Int32.toInt_inj, hd, hz]
    omega
  have hle : (i : Int).tmod (writePeriod g) = (i % writePeriod g : Nat) := by
    rw [Int.tmod_eq_emod_of_nonneg (by omega)]
    rfl
  have hm : (Int32.ofNat i % (100 / g.writeAccessRatio)).toInt = (i % writePeriod g : Nat) := by
    rw [Int32.toInt_mod, hd, Int32.toInt_ofNat_of_lt hi, hle]
  simp only [writesIth, writeIthElement, if_neg hw0, if_neg hw100, if_neg hd0,
    decide_eq_true_eq]
  rw [← Int32.toInt_inj, hm, hz, Nat.dvd_iff_mod_eq_zero]
  omega

/-- A traversal that counts its visits keeps to the ratio. -/
theorem writesEvery_of_counts (h0 : 0 < g.writeIterations.toInt) {qs : List UInt64}
    (hl : qs.length < 2 ^ 31) :
    WritesEvery (writePeriod g) (qs.zipIdx.map fun (q, i) ↦ ⟨q, writesTo g i⟩) := by
  have hiff {q : UInt64} {i : Nat} (hi : i < 2 ^ 31) :
      (⟨q, writesTo g i⟩ : Visit).written = true ↔ writePeriod g ∣ i := by
    rw [written_iff, writesIth_iff h1 h99 hi, and_iff_left h0]
  constructor
  · intro i v hv
    rw [List.getElem?_map, List.getElem?_zipIdx] at hv
    cases hq : qs[i]? with
    | none => rw [hq] at hv; cases hv
    | some q =>
      rw [hq] at hv
      cases hv
      have hi : i < qs.length := (List.getElem?_eq_some_iff.mp hq).1
      rw [Nat.zero_add]
      exact hiff (by omega)
  · rw [List.countP_map, List.length_map, List.length_zipIdx,
      ← countP_dvd (writePeriod_pos h1 h99), List.range_eq_range', ← List.zipIdx_map_snd 0 qs,
      List.countP_map]
    apply List.countP_congr
    intro p hp
    have hi := (List.mem_zipIdx' hp).1
    simp only [Function.comp_apply, decide_eq_true_eq]
    exact hiff (by omega)

/-- A traversal that writes every object keeps to a ratio that asks for all of them. -/
theorem writesEvery_all_iff {n : Nat} (hn : 0 < n) {qs : List UInt64} (hq : qs ≠ []) :
    WritesEvery (writePeriod g) (qs.map fun q ↦ ⟨q, n⟩) ↔
      writePeriod g = 1 ∨ qs.length = 1 := by
  have hp := writePeriod_pos h1 h99
  have hw (q : UInt64) : (⟨q, n⟩ : Visit).written = true := decide_eq_true hn
  have hall : (qs.map fun q ↦ (⟨q, n⟩ : Visit)).countP Visit.written = qs.length := by
    rw [List.countP_map]
    exact List.countP_eq_length.mpr fun q _ ↦ hw q
  constructor
  · intro H
    by_contra hno
    rw [not_or] at hno
    have hlen : 1 < qs.length := by
      have := List.length_pos_iff.mpr hq
      omega
    have hget : (qs.map fun q ↦ (⟨q, n⟩ : Visit))[1]? = some ⟨qs[1], n⟩ := by
      rw [List.getElem?_map, List.getElem?_eq_getElem hlen]
      rfl
    exact hno.1 (Nat.dvd_one.mp ((H.every 1 _ hget).mp (hw _)))
  · intro hc
    constructor
    · intro i v hv
      rw [List.getElem?_map] at hv
      cases hi : qs[i]? with
      | none => rw [hi] at hv; cases hv
      | some q =>
        rw [hi] at hv
        cases hv
        have hlt := (List.getElem?_eq_some_iff.mp hi).1
        refine iff_of_true (hw q) ?_
        obtain hc | hc := hc
        · rw [hc]
          exact Nat.one_dvd i
        · rw [show i = 0 by omega]
          exact Nat.dvd_zero _
    · rw [hall, List.length_map]
      obtain hc | hc := hc
      · rw [hc, ceilDiv_one]
      · rw [hc, Nat.ceilDiv_eq_add_pred_div, Nat.add_sub_cancel_left, Nat.div_self hp]

variable (hs : headerSize d.type ≤ d.objectSize) (hs' : d.objectSize.toNat < 2 ^ 31)
  (C : Collection d start objs h) (hf : d.numObjects.toNat < fuel)
include hs hs' C hf

private theorem iterations_pos (h0 : 0 < d.numObjects.toNat) (ht : Traverses g fuel d start h vs)
    (H : WritesEvery k vs) : 0 < g.writeIterations.toInt := by
  have hv := visitLSClass_spec (g := g) (E := fun _ ↦ True) (by omega) hs hs' hf
    (fun _ _ ↦ trivial) C
  obtain ⟨h', hok⟩ := traverses_iff.mp ht
  rw [hok] at hv
  obtain ⟨qs, -, hp, -, rfl, -⟩ := hv
  have hlen : 0 < qs.length := by
    rwa [hp.length_eq, C.length]
  have hget : (qs.zipIdx.map fun (q, i) ↦
      (⟨q, writesTo g (accessCounter d.type i)⟩ : Visit))[0]? =
        some ⟨qs[0], writesTo g (accessCounter d.type 0)⟩ := by
    rw [List.getElem?_map, List.getElem?_zipIdx, List.getElem?_eq_getElem hlen]
    rfl
  exact (written_iff.mp ((H.every 0 _ hget).mpr (Nat.dvd_zero k))).2

variable (hi : 0 < g.writeIterations.toInt)
include hi

private theorem list_writesEvery_iff (hc : d.type.countsVisits = true) :
    (∃ vs, Traverses g fuel d start h vs ∧ vs.length = d.numObjects.toNat ∧
      WritesEvery (writePeriod g) vs) ↔ d.numObjects.toNat < 2 ^ 31 := by
  have hv := visitLSClass_spec (g := g) (E := fun _ ↦ 2 ^ 31 ≤ d.numObjects.toNat) (by omega) hs
    hs' hf (fun _ he ↦ he) C
  constructor
  · rintro ⟨vs, ht, -, -⟩
    obtain ⟨h', hok⟩ := traverses_iff.mp ht
    rw [hok] at hv
    obtain ⟨-, -, -, hb, -⟩ := hv
    exact hb hc
  · intro hn
    obtain ⟨⟨vs, h'⟩, hok, qs, -, hp, -, rfl, -⟩ := hv.exists_ok fun _ he ↦ absurd he (by omega)
    have hlen : qs.length = d.numObjects.toNat := hp.length_eq.trans C.length
    refine ⟨_, traverses_iff.mpr ⟨h', hok⟩, ?_, ?_⟩
    · rw [List.length_map, List.length_zipIdx, hlen]
    · simp only [accessCounter, hc, if_true]
      exact writesEvery_of_counts h1 h99 hi (by omega)

private theorem tree_writesEvery_iff (h0 : 0 < d.numObjects.toNat)
    (hc : d.type.countsVisits = false) :
    (∃ vs, Traverses g fuel d start h vs ∧ vs.length = d.numObjects.toNat ∧
      WritesEvery (writePeriod g) vs) ↔ writePeriod g = 1 ∨ d.numObjects.toNat = 1 := by
  have hv := visitLSClass_spec (g := g) (E := fun _ ↦ False) (by omega) hs hs' hf
    (fun ht _ ↦ by rw [hc] at ht; cases ht) C
  obtain ⟨⟨vs, h'⟩, hok, qs, -, hp, -, hvs, -⟩ := hv.exists_ok fun _ he ↦ he.elim
  have hlen : qs.length = d.numObjects.toNat := hp.length_eq.trans C.length
  have hne : qs ≠ [] := List.length_pos_iff.mp (by omega)
  have hfirst : writesIth g 0 = true := (writesIth_iff h1 h99 (by decide)).mpr (Nat.dvd_zero _)
  have hn : 0 < g.writeIterations.toNatClampNeg := by
    rw [Int32.toNatClampNeg]
    omega
  have hall : vs = qs.map fun q ↦ ⟨q, g.writeIterations.toNatClampNeg⟩ := by
    simp only [hvs, accessCounter, hc, Bool.false_eq_true, if_false, writesTo, hfirst, if_true]
    conv_rhs => rw [← List.zipIdx_map_fst 0 qs, List.map_map]
    rfl
  rw [← hlen, ← writesEvery_all_iff h1 h99 hn hne, ← hall]
  constructor
  · rintro ⟨vs', ht, -, H⟩
    obtain ⟨h'', hok'⟩ := traverses_iff.mp ht
    obtain ⟨rfl, -⟩ := Prod.mk.inj (Except.ok.inj (hok'.symm.trans hok))
    exact H
  · intro H
    refine ⟨vs, traverses_iff.mpr ⟨h', hok⟩, ?_, H⟩
    rw [hall, List.length_map]

omit hi

/-- A traversal of a collection writes the first of its objects and then every
`100 / write_access_ratio`-th one exactly if the writes have iterations and the type counts its
visits, or has nothing to count. -/
theorem writesEvery_iff (h0 : 0 < d.numObjects.toNat) :
    (∃ vs, Traverses g fuel d start h vs ∧ vs.length = d.numObjects.toNat ∧
      WritesEvery (writePeriod g) vs) ↔ KeepsRatio g d := by
  by_cases hi : 0 < g.writeIterations.toInt
  · rw [KeepsRatio, and_iff_right hi]
    cases hc : d.type.countsVisits with
    | true => exact list_writesEvery_iff h1 h99 hs hs' C hf hi hc
    | false => exact tree_writesEvery_iff h1 h99 hs hs' C hf hi h0 hc
  · constructor
    · rintro ⟨vs, ht, -, H⟩
      exact absurd (iterations_pos h1 h99 hs hs' C hf h0 ht H) hi
    · intro h
      exact absurd h.1 hi

end

/-- Options that ask for every fifth object. -/
def everyFifth : GOptions := { GOptions.setDefaultParams with writeAccessRatio := 20 }

/-- An array of three objects of which the first one is written. -/
theorem writesEvery_iff_three :
    ∃ start h vs, Traverses everyFifth 4 ⟨0, 32, 1, 3, .optimalList, ⟨0, 0⟩⟩ start h vs ∧
      vs.length = 3 ∧ WritesEvery 5 vs := by
  obtain ⟨start, h, ha⟩ := exists_of_isOk
    (show (allocateLSClass bumpAllocator everyFifth .empty .optimalList 32 3).isOk = true by decide)
  obtain ⟨objs, C, -⟩ := exists_collection (d := ⟨0, 32, 1, 3, .optimalList, ⟨0, 0⟩⟩) (by decide)
    (by decide) (by decide) ha
  have hk : KeepsRatio everyFifth ⟨0, 32, 1, 3, .optimalList, ⟨0, 0⟩⟩ := by decide
  obtain ⟨vs, H⟩ := (writesEvery_iff (by decide) (by decide) (by decide) (by decide) C
    (by decide : 3 < 4) (by decide)).mpr hk
  exact ⟨start, h, vs, H⟩

/-- Of a tree of three objects every one is written, not every fifth. -/
theorem not_forall_writesEvery :
    ¬ ∀ (g : GOptions) (d : LSClass) (start : UInt64) (objs : List UInt64) (h : Heap)
      (fuel : Nat), 1 ≤ g.writeAccessRatio.toInt → g.writeAccessRatio.toInt ≤ 99 →
      headerSize d.type ≤ d.objectSize → d.objectSize.toNat < 2 ^ 31 → 0 < d.numObjects.toNat →
      Collection d start objs h → d.numObjects.toNat < fuel →
      ∃ vs, Traverses g fuel d start h vs ∧ vs.length = d.numObjects.toNat ∧
        WritesEvery (writePeriod g) vs := by
  intro hall
  obtain ⟨start, h, ha⟩ := exists_of_isOk
    (show (allocateLSClass bumpAllocator everyFifth .empty .optimalBtree 32 3).isOk = true by
      decide)
  obtain ⟨objs, C, -⟩ := exists_collection (d := ⟨0, 32, 1, 3, .optimalBtree, ⟨0, 0⟩⟩) (by decide)
    (by decide) (by decide) ha
  have H := hall everyFifth ⟨0, 32, 1, 3, .optimalBtree, ⟨0, 0⟩⟩ start objs h 4 (by decide)
    (by decide) (by decide) (by decide) (by decide) C (by decide)
  rw [tree_writesEvery_iff (by decide) (by decide) (by decide) (by decide) C (by decide) (by decide)
    (by decide) rfl] at H
  revert H
  decide

end Acdc.Objects
