import Acdc.Base.Heap
import Mathlib.Algebra.BigOperators.Group.Multiset.Basic
import Mathlib.Data.Multiset.Bind

/-!
# Owners of memory

The live regions of a heap are divided among owners. An owner comes with the regions that a run
allocates and leaves with the regions that a run frees. A run that stores to the regions of one
owner leaves the memory of the others.
-/

namespace Heap

variable {κ : Type*}

/-- The live regions are those of the owners. -/
def OwnedBy (h : Heap) (owners : Multiset κ) (regions : κ → List Region) : Prop :=
  (h.live : Multiset Region) = owners.bind fun c ↦ ↑(regions c)

/-- The memory of some regions is the same in two heaps. -/
def SameBytes (rs : List Region) (h h' : Heap) : Prop :=
  ∀ r ∈ rs, ∀ x, r.Has x → h'.bytes x = h.bytes x

section

variable {owners : Multiset κ} {regions regions' : κ → List Region} {rs : List Region}
  {W : Nat → Prop} {h h' : Heap} {c c' : κ}

theorem ownedBy_empty (regions : κ → List Region) : OwnedBy .empty 0 regions := rfl

/-- Only the regions of the owners matter. -/
theorem OwnedBy.congr (H : OwnedBy h owners regions)
    (hr : ∀ c ∈ owners, regions' c = regions c) : OwnedBy h owners regions' := by
  unfold OwnedBy at *
  rw [H]
  apply Multiset.bind_congr
  intro c hc
  rw [hr c hc]

/-- What an owner has is live, next to what the others have. -/
theorem OwnedBy.exists_perm (H : OwnedBy h owners regions) (hc : c ∈ owners) :
    ∃ rest, h.live.Perm (regions c ++ rest) := by
  obtain ⟨others, rfl⟩ := Multiset.exists_cons_of_mem hc
  unfold OwnedBy at H
  rw [Multiset.cons_bind] at H
  refine ⟨(others.bind fun c ↦ (↑(regions c) : Multiset Region)).toList, ?_⟩
  rw [← Multiset.coe_eq_coe, H, ← Multiset.coe_add, Multiset.coe_toList]

theorem OwnedBy.mem_live (H : OwnedBy h owners regions) (hc : c ∈ owners) {r : Region}
    (hr : r ∈ regions c) : r ∈ h.live := by
  obtain ⟨rest, hp⟩ := H.exists_perm hc
  exact hp.mem_iff.mpr (List.mem_append_left rest hr)

/-- Regions of different owners do not overlap. -/
theorem OwnedBy.apart (H : OwnedBy h owners regions) (hc : c ∈ owners) (hc' : c' ∈ owners)
    (hne : c ≠ c') {r s : Region} (hr : r ∈ regions c) (hs : s ∈ regions c') : r.Apart s := by
  obtain ⟨others, rfl⟩ := Multiset.exists_cons_of_mem hc
  obtain ⟨others, rfl⟩ :=
    Multiset.exists_cons_of_mem ((Multiset.mem_cons.mp hc').resolve_left hne.symm)
  unfold OwnedBy at H
  rw [Multiset.cons_bind, Multiset.cons_bind, ← add_assoc, Multiset.coe_add] at H
  have hp : h.live.Perm (regions c ++ regions c' ++
      (others.bind fun c ↦ (↑(regions c) : Multiset Region)).toList) := by
    rw [← Multiset.coe_eq_coe, H, ← Multiset.coe_add (regions c ++ regions c'),
      Multiset.coe_toList]
  have hap := (hp.pairwise_iff Region.Apart.symm).mp h.apart
  exact (List.pairwise_append.mp (List.pairwise_append.mp hap).1).2.2 r hr s hs

/-- All owners together have as much memory as is live. -/
theorem OwnedBy.sum_size (H : OwnedBy h owners regions) :
    (h.live.map Region.size).sum =
      (owners.map fun c ↦ ((regions c).map Region.size).sum).sum := by
  have hm := congrArg (fun m ↦ (m.map Region.size).sum) H
  simpa only [Multiset.map_coe, Multiset.sum_coe, Multiset.map_bind, Multiset.sum_bind] using hm

/-- A run that allocates nothing leaves the owners. -/
theorem OwnedBy.store (H : OwnedBy h owners regions) (G : Grows [] W h h') :
    OwnedBy h' owners regions := by
  unfold OwnedBy at *
  rw [← H, Multiset.coe_eq_coe]
  exact G.live

variable [DecidableEq κ]

/-- A new owner has what a run allocates. -/
theorem OwnedBy.allocate (H : OwnedBy h owners regions) (hc : c ∉ owners)
    (G : Grows rs W h h') : OwnedBy h' (c ::ₘ owners) (Function.update regions c rs) := by
  have hr : ∀ d ∈ owners, Function.update regions c rs d = regions d := by
    intro d hd
    apply Function.update_of_ne
    rintro rfl
    exact hc hd
  have H' := H.congr hr
  unfold OwnedBy at *
  rw [Multiset.cons_bind, ← H', Function.update_self, Multiset.coe_add, Multiset.coe_eq_coe]
  exact G.live

/-- An owner leaves when a run frees what it has. -/
theorem OwnedBy.release (H : OwnedBy h owners regions) (hc : c ∈ owners)
    (S : Shrinks (regions c) h h') : OwnedBy h' (owners.erase c) regions := by
  unfold OwnedBy at *
  have hl : (h.live : Multiset Region) = ↑(regions c) + ↑h'.live := by
    rw [Multiset.coe_add, Multiset.coe_eq_coe]
    exact S.live
  rw [← Multiset.cons_erase hc, Multiset.cons_bind, hl] at H
  exact add_left_cancel H

end

/-! ### Frames -/

section

variable {owners : Multiset κ} {regions : κ → List Region} {rs : List Region}
  {W : Nat → Prop} {h h' : Heap} {c c' : κ}

/-- A run that stores to new memory only leaves the memory of all owners. -/
theorem OwnedBy.sameBytes_of_grows (H : OwnedBy h owners regions) (hc : c ∈ owners)
    (G : Grows rs (fun _ ↦ False) h h') : SameBytes (regions c) h h' := by
  intro r hr x hx
  exact G.bytes r (H.mem_live hc hr) x hx id

/-- A run that stores to the memory of one owner leaves that of another. -/
theorem OwnedBy.sameBytes_of_store (H : OwnedBy h owners regions) (hc : c ∈ owners)
    (hc' : c' ∈ owners) (hne : c' ≠ c) (hW : ∀ x, W x → ∃ r ∈ regions c', r.Has x)
    (G : Grows rs W h h') : SameBytes (regions c) h h' := by
  intro r hr x hx
  apply G.bytes r (H.mem_live hc hr) x hx
  intro hw
  obtain ⟨s, hs, hsx⟩ := hW x hw
  exact (H.apart hc' hc hne hs hr).not_has hsx hx

/-- A run that frees the memory of one owner leaves that of another. -/
theorem OwnedBy.sameBytes_of_release [DecidableEq κ] (H : OwnedBy h owners regions)
    (hc : c ∈ owners.erase c') (hc' : c' ∈ owners) (S : Shrinks (regions c') h h') :
    SameBytes (regions c) h h' := by
  intro r hr x hx
  exact S.bytes r ((H.release hc' S).mem_live hc hr) x hx

end

end Heap
