import Acdc.Base.Inventory
import Mathlib.Data.Nat.ModEq

/-!
# Timing wheels

A timing wheel of `w` entries keeps items by the residue of the tick at which they are
due. While all due ticks lie in a window of `w` ticks from the current one, residues tell
them apart: the entry of the current tick holds exactly the items due now, and the entry
of an item is the only one that its residue names. The entries may be rotated by a fixed
shift.
-/

namespace TimingWheel

open Inventory

variable {α : Type*} {w : Nat}

/-- Two ticks of one window with the same residue are the same. -/
theorem eq_of_window {a b now : Nat} (h : a % w = b % w) (ha : now ≤ a ∧ a < now + w)
    (hb : now ≤ b ∧ b < now + w) : a = b := by
  have hm : a - now ≡ b - now [MOD w] := by
    apply Nat.ModEq.add_right_cancel' now
    rw [Nat.sub_add_cancel ha.1, Nat.sub_add_cancel hb.1]
    exact h
  have he := Nat.ModEq.eq_of_lt_of_lt hm (by omega) (by omega)
  omega

/-- A window of `w` ticks has a tick of every residue. -/
theorem exists_of_window (now : Nat) {k : Nat} (hk : k < w) :
    ∃ t, t % w = k ∧ now ≤ t ∧ t < now + w := by
  have hd := Nat.div_add_mod' now w
  have hm := Nat.mod_lt now (show 0 < w by omega)
  by_cases h : now % w ≤ k
  · refine ⟨now / w * w + k, ?_, by omega, by omega⟩
    rw [Nat.mul_add_mod_self_right, Nat.mod_eq_of_lt hk]
  · refine ⟨(now / w + 1) * w + k, ?_, ?_, ?_⟩
    · rw [Nat.mul_add_mod_self_right, Nat.mod_eq_of_lt hk]
    · rw [Nat.succ_mul]
      omega
    · rw [Nat.succ_mul]
      omega

/-- A residue is below `m` exactly in the first `m` ticks of a revolution. -/
theorem mod_lt_iff {m x : Nat} (hm : m ≤ w) :
    x % w < m ↔ ∃ q, q * w ≤ x ∧ x < q * w + m := by
  constructor
  · intro h
    have hd := Nat.div_add_mod' x w
    exact ⟨x / w, by omega, by omega⟩
  · rintro ⟨q, hq, hx⟩
    obtain ⟨r, rfl⟩ := Nat.exists_eq_add_of_le hq
    rw [Nat.mul_add_mod_self_right, Nat.mod_eq_of_lt (by omega)]
    omega

/-- Of the first `m` ticks of a window one has the residue of a tick of the window, or none. -/
theorem countP_range_mod {m a x : Nat} (hm : m ≤ w) (hx : a ≤ x ∧ x < a + w) :
    (List.range m).countP (fun k ↦ (a + k) % w = x % w) = if x < a + m then 1 else 0 := by
  have hcount : (List.range m).countP (fun k ↦ (a + k) % w = x % w) =
      (List.range m).count (x - a) := by
    apply List.countP_congr
    intro k hk
    have hkm := List.mem_range.mp hk
    simp only [decide_eq_true_eq, beq_iff_eq]
    constructor
    · intro h
      have he := eq_of_window h ⟨by omega, by omega⟩ hx
      omega
    · rintro rfl
      rw [Nat.add_sub_cancel' hx.1]
  rw [hcount, List.nodup_range.count]
  simp only [List.mem_range]
  split <;> split <;> omega

/-- The wheel holds items due in the window of `w` ticks from `now`, each in the entry
that its residue names. Nothing is said of items without a due tick. -/
structure Fits (due : α → Nat → Prop) (shift now w : Nat) (ls : List (List α)) : Prop where
  length_eq : ls.length = w
  entry : ∀ k l, ls[k]? = some l → ∀ a ∈ l, ∀ d, due a d →
    (k + shift) % w = d % w ∧ now ≤ d ∧ d < now + w

namespace Fits

variable {due due' : α → Nat → Prop} {shift now : Nat} {ls : List (List α)}

/-- A wheel of empty entries fits. -/
theorem empty (due : α → Nat → Prop) (shift now w : Nat) :
    Fits due shift now w (List.replicate w []) where
  length_eq := List.length_replicate
  entry k l hl a ha := by
    rw [List.getElem?_replicate] at hl
    split at hl
    · cases hl
      cases ha
    · cases hl

/-- Only the due ticks of the items matter. -/
theorem mono (h : Fits due shift now w ls) (hd : ∀ a ∈ bag ls, ∀ d, due' a d → due a d) :
    Fits due' shift now w ls where
  length_eq := h.length_eq
  entry k l hl a ha d had :=
    h.entry k l hl a ha d (hd a (mem_bag.mpr ⟨l, List.mem_of_getElem? hl, ha⟩) d had)

/-- Adding an item that is due in the window to the entry of its residue. -/
theorem insert (h : Fits due shift now w ls) {a : α} {k : Nat}
    (ha : ∀ d, due a d → (k + shift) % w = d % w ∧ now ≤ d ∧ d < now + w) :
    Fits due shift now w (ls.modify k (· ++ [a])) where
  length_eq := by rw [List.length_modify, h.length_eq]
  entry j l hl b hb := by
    rw [List.getElem?_modify] at hl
    obtain ⟨m, hm, rfl⟩ := Option.map_eq_some_iff.mp hl
    split at hb
    · next he =>
      subst he
      rcases List.mem_append.mp hb with hb | hb
      · exact h.entry k m hm b hb
      · rw [List.mem_singleton.mp hb]
        exact ha
    · exact h.entry j m hm b hb

/-- Dropping the first item of an entry. -/
theorem tail (h : Fits due shift now w ls) {a : α} {l : List α} {k : Nat}
    (hl : ls[k]? = some (a :: l)) : Fits due shift now w (ls.set k l) where
  length_eq := by rw [List.length_set, h.length_eq]
  entry j m hm b hb := by
    rw [List.getElem?_set] at hm
    split at hm
    · next he =>
      subst he
      split at hm
      · cases hm
        exact h.entry k _ hl b (List.mem_cons_of_mem a hb)
      · cases hm
    · exact h.entry j m hm b hb

/-- The items in the entry of a tick of the window are the items due at that tick. -/
theorem due_eq (h : Fits due shift now w ls) {k t : Nat} {l : List α} {a : α}
    (hl : ls[k]? = some l) (ha : a ∈ l) (hk : (k + shift) % w = t % w)
    (ht : now ≤ t ∧ t < now + w) {d : Nat} (hd : due a d) : d = t := by
  obtain ⟨he, hw⟩ := h.entry k l hl a ha d hd
  exact eq_of_window (he.symm.trans hk) hw ht

/-- The entry of an item is the one that the residue of its due tick names. -/
theorem entry_unique (h : Fits due shift now w ls) {j k : Nat} {l : List α} {a : α}
    (hl : ls[j]? = some l) (ha : a ∈ l) {d : Nat} (hd : due a d) (hk : k < w)
    (he : (k + shift) % w = d % w) : j = k := by
  have hj := (List.getElem?_eq_some_iff.mp hl).1
  rw [h.length_eq] at hj
  have hm : j + shift ≡ k + shift [MOD w] := by
    rw [Nat.ModEq, (h.entry j l hl a ha d hd).1, he]
  exact Nat.ModEq.eq_of_lt_of_lt (Nat.ModEq.add_right_cancel' shift hm) hj hk

/-- Once the entry of the current tick is empty the window may advance. -/
theorem advance (h : Fits due shift now w ls) {k : Nat} (hl : ls[k]? = some [])
    (hk : (k + shift) % w = now % w) : Fits due shift (now + 1) w ls where
  length_eq := h.length_eq
  entry j l hj a ha d hd := by
    obtain ⟨he, hlo, hhi⟩ := h.entry j l hj a ha d hd
    have hne : d ≠ now := by
      intro hdn
      have hkw := (List.getElem?_eq_some_iff.mp hl).1
      rw [h.length_eq] at hkw
      have hjk := h.entry_unique hj ha hd hkw (hdn ▸ hk)
      rw [hjk, hl] at hj
      cases hj
      cases ha
    exact ⟨he, by omega, by omega⟩

end Fits

end TimingWheel
