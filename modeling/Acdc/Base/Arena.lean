import Acdc.Base.Heap
import Mathlib.Algebra.Order.Group.Nat

/-!
# Bump allocation

An arena hands out chunks one behind the other, so that blocks in different chunks do not
overlap. A chunk that exceeds its block by the alignment less one has room for the block at an
aligned address, which a mask computes if the alignment is a power of two.
-/

namespace Arena

/-! ### Alignment -/

/-- The least multiple of `a` from `n` on. -/
def alignUp (n a : Nat) : Nat := n + (a - 1) - (n + (a - 1)) % a

variable {n a lo mid hi : Nat}

theorem dvd_alignUp (n a : Nat) : a ∣ alignUp n a := Nat.dvd_sub_mod (n + (a - 1))

theorem le_alignUp (ha : 0 < a) : n ≤ alignUp n a := by
  have hm := Nat.mod_lt (n + (a - 1)) ha
  rw [alignUp]
  omega

theorem alignUp_le (n a : Nat) : alignUp n a ≤ n + (a - 1) := Nat.sub_le _ _

/-- The two parts that a mask and its complement select of a word. -/
theorem toNat_and_not (x m : UInt64) : (x &&& ~~~m).toNat = x.toNat - (x &&& m).toNat := by
  have hdisjoint : (x &&& ~~~m).toBitVec &&& (x &&& m).toBitVec = 0#64 := by
    ext i
    simp only [UInt64.toBitVec_and, UInt64.toBitVec_not, BitVec.getElem_and, BitVec.getElem_not,
      BitVec.getElem_zero]
    cases x.toBitVec[i] <;> cases m.toBitVec[i] <;> rfl
  have hsum : (x &&& ~~~m).toBitVec + (x &&& m).toBitVec = x.toBitVec := by
    rw [BitVec.add_eq_or_of_and_eq_zero _ _ hdisjoint]
    ext i
    simp only [UInt64.toBitVec_and, UInt64.toBitVec_not, BitVec.getElem_or, BitVec.getElem_and,
      BitVec.getElem_not]
    cases x.toBitVec[i] <;> cases m.toBitVec[i] <;> rfl
  have h := BitVec.toNat_add_of_and_eq_zero hdisjoint
  rw [hsum] at h
  exact (Nat.sub_eq_of_eq_add h).symm

/-- A mask rounds down to a multiple of a power of two. -/
theorem toNat_mask {a : UInt64} {k : Nat} (x : UInt64) (ha : a.toNat = 2 ^ k) :
    (x &&& ~~~(a - 1)).toNat = x.toNat - x.toNat % a.toNat := by
  have hpos : 0 < 2 ^ k := Nat.two_pow_pos k
  have hone : (a - 1).toNat = 2 ^ k - 1 := by
    rw [UInt64.toNat_sub_of_le _ _ (by rw [UInt64.le_iff_toNat_le, ha, UInt64.toNat_one]; omega),
      ha, UInt64.toNat_one]
  rw [toNat_and_not, UInt64.toNat_and, hone, Nat.and_two_pow_sub_one_eq_mod, ha]

/-! ### Blocks -/

/-- Blocks in an interval that do not overlap. -/
structure Packed (lo hi : Nat) (blocks : List Region) : Prop where
  within : ∀ r ∈ blocks, lo ≤ r.start ∧ r.start + r.size ≤ hi
  apart : blocks.Pairwise Region.Apart

theorem packed_nil (lo hi : Nat) : Packed lo hi [] := ⟨nofun, .nil⟩

/-- A block before the others. -/
theorem Packed.cons {r : Region} {blocks : List Region} (h : Packed mid hi blocks)
    (hlo : lo ≤ r.start) (hr : r.start + r.size ≤ mid) (hhi : mid ≤ hi) :
    Packed lo hi (r :: blocks) where
  within := by
    intro b hb
    obtain rfl | hb := List.mem_cons.mp hb
    · exact ⟨hlo, by omega⟩
    · have hw := h.within b hb
      omega
  apart := by
    apply List.pairwise_cons.mpr ⟨_, h.apart⟩
    intro b hb
    exact .inl (hr.trans (h.within b hb).1)

/-! ### Lines -/

/-- Groups of blocks, one behind the other, each of which begins on a line of its own. -/
inductive OnLines (line : Nat) : Nat → List (List Region) → Prop where
  | nil (lo : Nat) : OnLines line lo []
  | cons {lo p q : Nat} {rs : List Region} {groups : List (List Region)} (hlo : lo ≤ p)
      (hpq : p ≤ q) (hline : line ∣ p) (hrs : ∀ r ∈ rs, p ≤ r.start ∧ r.start + r.size ≤ q)
      (h : OnLines line q groups) : OnLines line lo (rs :: groups)

variable {line : Nat} {groups : List (List Region)}

/-- A group lies from a line on that is not below the first one. -/
theorem OnLines.exists_start (h : OnLines line lo groups) {rs : List Region} (hrs : rs ∈ groups) :
    ∃ p, lo ≤ p ∧ line ∣ p ∧ ∀ r ∈ rs, p ≤ r.start := by
  induction h with
  | nil lo => cases hrs
  | @cons lo p q rs' groups hlo hpq hline hrs' _ ih =>
    obtain rfl | hrs := List.mem_cons.mp hrs
    · exact ⟨p, hlo, hline, fun r hr ↦ (hrs' r hr).1⟩
    · obtain ⟨p', hle, hline', hp'⟩ := ih hrs
      exact ⟨p', by omega, hline', hp'⟩

/-- The groups share no line. -/
theorem OnLines.pairwise (hline : 0 < line) (h : OnLines line lo groups) :
    groups.Pairwise fun rs rs' ↦ ∀ r ∈ rs, ∀ r' ∈ rs', ∀ x y, r.Has x → r'.Has y →
      x / line < y / line := by
  induction h with
  | nil lo => exact .nil
  | @cons lo p q rs groups hlo hpq hdvd hrs h ih =>
    apply List.pairwise_cons.mpr ⟨_, ih⟩
    intro rs' hrs' r hr r' hr' x y hx hy
    obtain ⟨p', hle, ⟨k, rfl⟩, hp'⟩ := h.exists_start hrs'
    -- the first group ends below the line on which the second one begins
    have hlt : x < line * k := by
      have hend := (hrs r hr).2
      have hxr := hx.2
      omega
    have hge : line * k ≤ y := (hp' r' hr').trans hy.1
    calc x / line < k := Nat.div_lt_of_lt_mul hlt
      _ = line * k / line := (Nat.mul_div_cancel_left k hline).symm
      _ ≤ y / line := Nat.div_le_div_right hge

end Arena
