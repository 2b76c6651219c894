import Acdc.Base.Memory
import Mathlib.Data.List.Pairwise
import Mathlib.Data.List.Perm.Basic

/-!
# Heaps

A heap is a memory in which an allocator has handed out regions that do not overlap. Words
and bytes are accessed inside the live regions. The log records the accesses, newest first;
no operation reads it. `Grows` and `Shrinks` say what a run of operations may do to a heap;
they compose along the run.
-/

/-- An interval of addresses. -/
structure Region where
  start : Nat
  size : Nat
  deriving DecidableEq, Repr

namespace Region

/-- The addresses of a region. -/
def Has (r : Region) (a : Nat) : Prop := r.start ≤ a ∧ a < r.start + r.size

instance (r : Region) (a : Nat) : Decidable (r.Has a) := inferInstanceAs (Decidable (_ ∧ _))

/-- Every address of the one is an address of the other. -/
def Within (r s : Region) : Prop := s.start ≤ r.start ∧ r.start + r.size ≤ s.start + s.size

instance (r s : Region) : Decidable (r.Within s) := inferInstanceAs (Decidable (_ ∧ _))

/-- Two regions without a common address. -/
def Apart (r s : Region) : Prop := r.start + r.size ≤ s.start ∨ s.start + s.size ≤ r.start

instance (r s : Region) : Decidable (r.Apart s) := inferInstanceAs (Decidable (_ ∨ _))

/-- A region that an allocator may hand out: not at address 0, not empty, and inside the
address space. -/
structure Valid (r : Region) : Prop where
  start_pos : 0 < r.start
  size_pos : 0 < r.size
  le : r.start + r.size ≤ 2 ^ 64

theorem Apart.symm {r s : Region} (h : r.Apart s) : s.Apart r := Or.symm h

instance : Std.Symm Apart where
  symm _ _ := Apart.symm

theorem Within.refl (r : Region) : r.Within r := ⟨le_rfl, le_rfl⟩

theorem Within.trans {r s t : Region} (h : r.Within s) (h' : s.Within t) : r.Within t :=
  ⟨h'.1.trans h.1, h.2.trans h'.2⟩

theorem Within.has {r s : Region} (h : r.Within s) {x : Nat} (hx : r.Has x) : s.Has x :=
  ⟨h.1.trans hx.1, hx.2.trans_le h.2⟩

theorem Within.apart {r s t : Region} (h : r.Within s) (h' : s.Apart t) : r.Apart t :=
  h'.imp (h.2.trans ·) (·.trans h.1)

theorem Apart.not_has {r s : Region} (h : r.Apart s) {x : Nat} (hx : r.Has x) : ¬ s.Has x := by
  intro hs
  unfold Apart Has at *
  omega

end Region

/-- An access to a heap. -/
inductive Access where
  | alloc (r : Region)
  | free (r : Region)
  | load (r : Region)
  | store (r : Region)
  deriving DecidableEq, Repr

/-- The region that an access is about. -/
def Access.region : Access → Region
  | .alloc r | .free r | .load r | .store r => r

/-- A memory with live regions that do not overlap. -/
structure Heap where
  bytes : Memory
  live : List Region
  log : List Access
  apart : live.Pairwise Region.Apart
  valid : ∀ r ∈ live, r.Valid

/-- A memory allocator: whether and where it serves a request, and what freed memory holds.
A region that it hands out does not overlap the live ones. -/
structure Allocator where
  request : Heap → Nat → Option UInt64
  overwrite : Nat → UInt8
  valid : ∀ h n p, 0 < n → request h n = some p → Region.Valid ⟨p.toNat, n⟩
  fresh : ∀ h n p, 0 < n → request h n = some p → ∀ r ∈ h.live, Region.Apart ⟨p.toNat, n⟩ r

/-- The regions that a log allocates, newest first. -/
def allocated : List Access → List Region
  | [] => []
  | .alloc r :: log => r :: allocated log
  | _ :: log => allocated log

/-- The regions that a log frees, newest first. -/
def freed : List Access → List Region
  | [] => []
  | .free r :: log => r :: freed log
  | _ :: log => freed log

theorem allocated_append (l l' : List Access) :
    allocated (l ++ l') = allocated l ++ allocated l' := by
  induction l with
  | nil => rfl
  | cons e l ih => cases e <;> simp [allocated, ih]

theorem freed_append (l l' : List Access) :
    freed (l ++ l') = freed l ++ freed l' := by
  induction l with
  | nil => rfl
  | cons e l ih => cases e <;> simp [freed, ih]

theorem mem_freed {l : List Access} {r : Region} (h : .free r ∈ l) : r ∈ freed l := by
  obtain ⟨l₁, l₂, rfl⟩ := List.append_of_mem h
  rw [freed_append]
  exact List.mem_append_right _ List.mem_cons_self

/-- No access is to a region that was freed before. -/
def NoUseAfterFree (log : List Access) : Prop :=
  log.Pairwise fun later earlier ↦ ∀ r, earlier = .free r → later.region.Apart r

namespace Heap

/-- A region is in one live region. -/
def Covers (h : Heap) (r : Region) : Prop := ∃ s ∈ h.live, r.Within s

instance (h : Heap) (r : Region) : Decidable (h.Covers r) :=
  inferInstanceAs (Decidable (∃ s ∈ h.live, _))

/-- The word at an address, and the heap after it is loaded. -/
def loadWord (h : Heap) (a : Nat) : UInt64 × Heap :=
  (h.bytes.load a, { h with log := .load ⟨a, 8⟩ :: h.log })

/-- The byte at an address, and the heap after it is loaded. -/
def loadByte (h : Heap) (a : Nat) : UInt8 × Heap :=
  (h.bytes a, { h with log := .load ⟨a, 1⟩ :: h.log })

/-- The heap after a word is stored. -/
def storeWord (h : Heap) (a : Nat) (v : UInt64) : Heap :=
  { h with bytes := h.bytes.store a v, log := .store ⟨a, 8⟩ :: h.log }

/-- The heap after a byte is stored. -/
def storeByte (h : Heap) (a : Nat) (x : UInt8) : Heap :=
  { h with bytes := Function.update h.bytes a x, log := .store ⟨a, 1⟩ :: h.log }

/-- A region of `n` bytes, if the allocator serves the request. -/
def alloc (A : Allocator) (h : Heap) (n : Nat) (hn : 0 < n) : Option (UInt64 × Heap) :=
  match hp : A.request h n with
  | none => none
  | some p => some (p, {
      bytes := h.bytes
      live := ⟨p.toNat, n⟩ :: h.live
      log := .alloc ⟨p.toNat, n⟩ :: h.log
      apart := List.pairwise_cons.mpr ⟨A.fresh h n p hn hp, h.apart⟩
      valid := List.forall_mem_cons.mpr ⟨A.valid h n p hn hp, h.valid⟩ })

/-- The heap after the live region that starts at an address is freed. -/
def free (A : Allocator) (h : Heap) (a : Nat) : Option Heap :=
  match h.live.find? (·.start = a) with
  | none => none
  | some r => some {
      bytes := fun x ↦ if r.Has x then A.overwrite x else h.bytes x
      live := h.live.erase r
      log := .free r :: h.log
      apart := h.apart.sublist List.erase_sublist
      valid := fun s hs ↦ h.valid s (List.mem_of_mem_erase hs) }

/-- What the log of the second heap has on top of that of the first. -/
def since (h h' : Heap) : List Access := h'.log.take (h'.log.length - h.log.length)

theorem since_eq {h h' : Heap} {l : List Access} (hl : h'.log = l ++ h.log) : since h h' = l := by
  rw [since, hl, List.length_append, Nat.add_sub_cancel, List.take_left']
  rfl

/-- Live regions are distinct. -/
theorem nodup_live (h : Heap) : h.live.Nodup := by
  apply h.apart.imp_of_mem
  rintro r _ hr - hap rfl
  have := (h.valid r hr).size_pos
  unfold Region.Apart at hap
  omega

/-! ### Runs that allocate and store -/

/-- From `h` to `h'` the regions `rs` are allocated, and memory that was live before is
stored to in `W` only. -/
structure Grows (rs : List Region) (W : Nat → Prop) (h h' : Heap) : Prop where
  live : h'.live.Perm (rs ++ h.live)
  bytes : ∀ r ∈ h.live, ∀ x, r.Has x → ¬ W x → h'.bytes x = h.bytes x
  log : ∃ l, h'.log = l ++ h.log ∧ (allocated l).Perm rs ∧ freed l = [] ∧
    ∀ s, .store s ∈ l → ∀ x, s.Has x → W x ∨ ∃ r ∈ rs, r.Has x

section

variable {rs rs' : List Region} {W W' : Nat → Prop} {h h' h'' : Heap}

theorem Grows.refl (W : Nat → Prop) (h : Heap) : Grows [] W h h where
  live := List.Perm.refl _
  bytes _ _ _ _ _ := rfl
  log := ⟨[], rfl, List.Perm.refl _, rfl, fun _ hs ↦ absurd hs List.not_mem_nil⟩

/-- A region that was live stays so. -/
theorem Grows.mem_live (H : Grows rs W h h') {r : Region} (hr : r ∈ h.live) : r ∈ h'.live :=
  H.live.mem_iff.mpr (List.mem_append_right _ hr)

theorem Grows.new_mem_live (H : Grows rs W h h') {r : Region} (hr : r ∈ rs) : r ∈ h'.live :=
  H.live.mem_iff.mpr (List.mem_append_left _ hr)

theorem Grows.covers (H : Grows rs W h h') {r : Region} (hr : h.Covers r) : h'.Covers r := by
  obtain ⟨s, hs, hw⟩ := hr
  exact ⟨s, H.mem_live hs, hw⟩

/-- The regions of the heap after a run do not overlap. -/
theorem Grows.pairwise (H : Grows rs W h h') : (rs ++ h.live).Pairwise Region.Apart :=
  (H.live.pairwise_iff Region.Apart.symm).mp h'.apart

/-- An allocated region does not overlap one that was live. -/
theorem Grows.apart (H : Grows rs W h h') {r s : Region} (hr : r ∈ rs) (hs : s ∈ h.live) :
    r.Apart s := (List.pairwise_append.mp H.pairwise).2.2 r hr s hs

/-- A run goes on: what it stores to is new, or was stored to already. -/
theorem Grows.trans (H : Grows rs W h h') (H' : Grows rs' W' h' h'')
    (hW : ∀ x, W' x → W x ∨ ∃ r ∈ rs, r.Has x) : Grows (rs ++ rs') W h h'' where
  live := calc
    h''.live.Perm (rs' ++ h'.live) := H'.live
    List.Perm _ (rs' ++ (rs ++ h.live)) := H.live.append_left rs'
    List.Perm _ (rs ++ rs' ++ h.live) := by
      rw [← List.append_assoc]
      exact List.perm_append_comm.append_right _
  bytes := by
    intro r hr x hx hn
    have hn' : ¬ W' x := by
      intro hw
      obtain hw | ⟨s, hs, hsx⟩ := hW x hw
      · exact hn hw
      · exact (H.apart hs hr).not_has hsx hx
    rw [H'.bytes r (H.mem_live hr) x hx hn', H.bytes r hr x hx hn]
  log := by
    obtain ⟨l, hl, ha, hf, hs⟩ := H.log
    obtain ⟨l', hl', ha', hf', hs'⟩ := H'.log
    refine ⟨l' ++ l, by rw [hl', hl, List.append_assoc], ?_, by rw [freed_append, hf, hf']; rfl, ?_⟩
    · rw [allocated_append]
      exact (ha'.append ha).trans List.perm_append_comm
    · intro s hm x hx
      obtain hm | hm := List.mem_append.mp hm
      · obtain hw | ⟨r, hr, hrx⟩ := hs' s hm x hx
        · exact (hW x hw).imp_right fun ⟨r, hr, hrx⟩ ↦ ⟨r, List.mem_append_left _ hr, hrx⟩
        · exact .inr ⟨r, List.mem_append_right _ hr, hrx⟩
      · exact (hs s hm x hx).imp_right fun ⟨r, hr, hrx⟩ ↦ ⟨r, List.mem_append_left _ hr, hrx⟩

/-- A run goes on without an allocation. -/
theorem Grows.step (H : Grows rs W h h') (H' : Grows [] W' h' h'')
    (hW : ∀ x, W' x → W x ∨ ∃ r ∈ rs, r.Has x) : Grows rs W h h'' := by
  simpa only [List.append_nil] using H.trans H' hW

/-- A run that stores to less. -/
theorem Grows.mono (H : Grows rs W h h') (hW : ∀ x, W x → W' x) : Grows rs W' h h' where
  live := H.live
  bytes r hr x hx hn := H.bytes r hr x hx fun hw ↦ hn (hW x hw)
  log := by
    obtain ⟨l, hl, ha, hf, hs⟩ := H.log
    exact ⟨l, hl, ha, hf, fun s hm x hx ↦ (hs s hm x hx).imp_left (hW x)⟩

end

/-- An allocation. -/
theorem grows_alloc {A : Allocator} {h h' : Heap} {n : Nat} {hn : 0 < n} {p : UInt64}
    (hp : alloc A h n hn = some (p, h')) : Grows [⟨p.toNat, n⟩] (fun _ ↦ False) h h' := by
  unfold alloc at hp
  split at hp
  · cases hp
  · next q hq =>
    obtain ⟨rfl, rfl⟩ := Prod.mk.inj (Option.some.inj hp)
    refine ⟨List.Perm.refl _, fun _ _ _ _ _ ↦ rfl, [.alloc ⟨q.toNat, n⟩], rfl, .refl _, rfl, ?_⟩
    intro s hs
    cases List.mem_singleton.mp hs

theorem grows_loadWord (h : Heap) (a : Nat) : Grows [] (fun _ ↦ False) h (h.loadWord a).2 :=
  ⟨.refl _, fun _ _ _ _ _ ↦ rfl, [.load ⟨a, 8⟩], rfl, .refl _, rfl, fun s hs ↦ by
    cases List.mem_singleton.mp hs⟩

theorem grows_loadByte (h : Heap) (a : Nat) : Grows [] (fun _ ↦ False) h (h.loadByte a).2 :=
  ⟨.refl _, fun _ _ _ _ _ ↦ rfl, [.load ⟨a, 1⟩], rfl, .refl _, rfl, fun s hs ↦ by
    cases List.mem_singleton.mp hs⟩

theorem grows_storeWord (h : Heap) (a : Nat) (v : UInt64) :
    Grows [] (Region.Has ⟨a, 8⟩) h (h.storeWord a v) where
  live := .refl _
  bytes _ _ _ _ hn := Memory.store_of_not_mem hn
  log := by
    refine ⟨[.store ⟨a, 8⟩], rfl, .refl _, rfl, ?_⟩
    intro s hs x hx
    cases List.mem_singleton.mp hs
    exact .inl hx

theorem grows_storeByte (h : Heap) (a : Nat) (v : UInt8) :
    Grows [] (Region.Has ⟨a, 1⟩) h (h.storeByte a v) where
  live := .refl _
  bytes _ _ x _ hn := by
    have hx : x ≠ a := by
      rintro rfl
      exact hn ⟨le_rfl, Nat.lt_succ_self _⟩
    exact Function.update_of_ne hx _ _
  log := by
    refine ⟨[.store ⟨a, 1⟩], rfl, .refl _, rfl, ?_⟩
    intro s hs x hx
    cases List.mem_singleton.mp hs
    exact .inl hx

/-! ### Runs that build -/

/-- From `h` to `h'` the regions `rs` are allocated in this order, and no memory that was live
before is stored to. -/
structure Builds (rs : List Region) (h h' : Heap) : Prop where
  grows : Grows rs (fun _ ↦ False) h h'
  order : ∃ l, h'.log = l ++ h.log ∧ allocated l = rs.reverse

section

variable {rs rs' : List Region} {W : Nat → Prop} {h h' h'' : Heap}

theorem Builds.refl (h : Heap) : Builds [] h h := ⟨.refl _ h, [], rfl, rfl⟩

/-- A run that allocates one region allocates it first. -/
theorem Grows.builds {r : Region} (H : Grows [r] (fun _ ↦ False) h h') : Builds [r] h h' := by
  obtain ⟨l, hl, ha, -⟩ := H.log
  exact ⟨H, l, hl, List.perm_singleton.mp ha⟩

/-- A run goes on. -/
theorem Builds.trans (H : Builds rs h h') (H' : Builds rs' h' h'') :
    Builds (rs ++ rs') h h'' := by
  obtain ⟨l, hl, ha⟩ := H.order
  obtain ⟨l', hl', ha'⟩ := H'.order
  refine ⟨H.grows.trans H'.grows fun _ hw ↦ hw.elim, l' ++ l, ?_, ?_⟩
  · rw [hl', hl, List.append_assoc]
  · rw [allocated_append, ha, ha', List.reverse_append]

/-- A run goes on without an allocation, and stores to its own regions only. -/
theorem Builds.step (H : Builds rs h h') (H' : Grows [] W h' h'')
    (hW : ∀ x, W x → ∃ r ∈ rs, r.Has x) : Builds rs h h'' := by
  obtain ⟨l, hl, ha⟩ := H.order
  obtain ⟨l', hl', ha', -⟩ := H'.log
  refine ⟨H.grows.step H' fun x hx ↦ .inr (hW x hx), l' ++ l, ?_, ?_⟩
  · rw [hl', hl, List.append_assoc]
  · rw [allocated_append, List.perm_nil.mp ha', ha, List.nil_append]

/-- What the log of a run says. -/
theorem Builds.allocated_since (H : Builds rs h h') : allocated (since h h') = rs.reverse := by
  obtain ⟨l, hl, ha⟩ := H.order
  rw [since_eq hl, ha]

end

/-! ### Runs that load and free -/

/-- From `h` to `h'` the regions `rs` are freed, and the others are unchanged. Every access
is inside a region that is still live. -/
structure Shrinks (rs : List Region) (h h' : Heap) : Prop where
  live : h.live.Perm (rs ++ h'.live)
  bytes : ∀ r ∈ h'.live, ∀ x, r.Has x → h'.bytes x = h.bytes x
  log : ∃ l, h'.log = l ++ h.log ∧ (freed l).Perm rs ∧ allocated l = [] ∧
    (∀ e ∈ l, ∃ s ∈ h.live, e.region.Within s) ∧ NoUseAfterFree l

section

variable {rs rs' : List Region} {h h' h'' : Heap}

/-- A region that is live after the run was live before. -/
theorem Shrinks.mem_live (H : Shrinks rs h h') {r : Region} (hr : r ∈ h'.live) : r ∈ h.live :=
  H.live.mem_iff.mpr (List.mem_append_right _ hr)

/-- A freed region does not overlap one that is still live. -/
theorem Shrinks.apart (H : Shrinks rs h h') {r s : Region} (hr : r ∈ rs) (hs : s ∈ h'.live) :
    r.Apart s :=
  (List.pairwise_append.mp ((H.live.pairwise_iff Region.Apart.symm).mp h.apart)).2.2 r hr s hs

theorem Shrinks.refl (h : Heap) : Shrinks [] h h :=
  ⟨.refl _, fun _ _ _ _ ↦ rfl, [], rfl, .refl _, rfl, fun _ he ↦ absurd he List.not_mem_nil,
    List.Pairwise.nil⟩

/-- A run goes on. -/
theorem Shrinks.trans (H : Shrinks rs h h') (H' : Shrinks rs' h' h'') :
    Shrinks (rs ++ rs') h h'' where
  live := calc
    h.live.Perm (rs ++ h'.live) := H.live
    List.Perm _ (rs ++ (rs' ++ h''.live)) := H'.live.append_left rs
    List.Perm _ (rs ++ rs' ++ h''.live) := by rw [List.append_assoc]
  bytes r hr x hx := by rw [H'.bytes r hr x hx, H.bytes r (H'.mem_live hr) x hx]
  log := by
    obtain ⟨l, hl, hf, ha, hc, hu⟩ := H.log
    obtain ⟨l', hl', hf', ha', hc', hu'⟩ := H'.log
    refine ⟨l' ++ l, by rw [hl', hl, List.append_assoc], ?_,
      by rw [allocated_append, ha, ha']; rfl, ?_, ?_⟩
    · rw [freed_append]
      exact (hf'.append hf).trans List.perm_append_comm
    · intro e he
      obtain he | he := List.mem_append.mp he
      · obtain ⟨s, hs, hw⟩ := hc' e he
        exact ⟨s, H.mem_live hs, hw⟩
      · exact hc e he
    · refine List.pairwise_append.mpr ⟨hu', hu, ?_⟩
      rintro e he _ he' r rfl
      obtain ⟨s, hs, hw⟩ := hc' e he
      have hr : r ∈ rs := hf.mem_iff.mp (mem_freed he')
      exact hw.apart (H.apart hr hs).symm

/-- The order in which regions are freed does not matter. -/
theorem Shrinks.perm (H : Shrinks rs h h') (hp : rs.Perm rs') : Shrinks rs' h h' where
  live := H.live.trans (hp.append_right _)
  bytes := H.bytes
  log := by
    obtain ⟨l, hl, hf, ha, hc, hu⟩ := H.log
    exact ⟨l, hl, hf.trans hp, ha, hc, hu⟩

end

theorem shrinks_loadWord {h : Heap} {a : Nat} (hc : h.Covers ⟨a, 8⟩) :
    Shrinks [] h (h.loadWord a).2 := by
  refine ⟨.refl _, fun _ _ _ _ ↦ rfl, [.load ⟨a, 8⟩], rfl, .refl _, rfl, ?_,
    List.pairwise_singleton _ _⟩
  intro e he
  cases List.mem_singleton.mp he
  exact hc

/-- Of two regions that do not overlap, only one starts at an address. -/
theorem eq_of_start_eq {h : Heap} {r s : Region} (hr : r ∈ h.live) (hs : s ∈ h.live)
    (he : r.start = s.start) : r = s := by
  by_contra hne
  have hap : r.Apart s := h.apart.forall hr hs hne
  have h0 := (h.valid r hr).size_pos
  have h0' := (h.valid s hs).size_pos
  unfold Region.Apart at hap
  omega

/-- A live region is freed through its address. -/
theorem free_eq_some (A : Allocator) {h : Heap} {r : Region} (hr : r ∈ h.live) :
    ∃ h', h.free A r.start = some h' ∧ Shrinks [r] h h' := by
  have hf : h.live.find? (·.start = r.start) = some r := by
    cases hs : h.live.find? (·.start = r.start) with
    | none => simpa using List.find?_eq_none.mp hs r hr
    | some s =>
      have he : s.start = r.start := by simpa using List.find?_some hs
      rw [eq_of_start_eq (List.mem_of_find?_eq_some hs) hr he]
  unfold free
  rw [hf]
  refine ⟨_, rfl, List.perm_cons_erase hr, ?_, [.free r], rfl, .refl _, rfl, ?_,
    List.pairwise_singleton _ _⟩
  · intro s hs x hx
    have hap := List.pairwise_cons.mp
      (((List.perm_cons_erase hr).pairwise_iff Region.Apart.symm).mp h.apart)
    exact if_neg fun hrx ↦ (hap.1 s hs).not_has hrx hx
  · intro e he
    cases List.mem_singleton.mp he
    exact ⟨r, hr, .refl r⟩

/-- A heap without live regions. -/
def empty : Heap := ⟨fun _ ↦ 0, [], [], List.Pairwise.nil, fun _ hr ↦ absurd hr List.not_mem_nil⟩

/-- The first address above all live regions. -/
def top (h : Heap) : Nat := h.live.foldr (fun r a ↦ max (r.start + r.size) a) 16

theorem le_top {h : Heap} {r : Region} (hr : r ∈ h.live) : r.start + r.size ≤ h.top := by
  unfold top
  generalize h.live = l at hr ⊢
  induction l with
  | nil => cases hr
  | cons s l ih =>
    rw [List.foldr_cons]
    obtain rfl | hr := List.mem_cons.mp hr
    · exact Nat.le_max_left _ _
    · exact (ih hr).trans (Nat.le_max_right _ _)

theorem top_pos (h : Heap) : 0 < h.top := by
  unfold top
  induction h.live with
  | nil => exact Nat.zero_lt_succ 15
  | cons s l ih => exact ih.trans_le (Nat.le_max_right _ _)

/-- The allocator that hands out memory above all live regions while there is some. -/
def bumpAllocator : Allocator where
  request h n := if h.top + n ≤ 2 ^ 64 then some (UInt64.ofNat h.top) else none
  overwrite _ := 0
  valid := by
    intro h n p hn hp
    split at hp
    · next hle =>
      have ht : (UInt64.ofNat h.top).toNat = h.top := by
        rw [UInt64.toNat_ofNat', Nat.mod_eq_of_lt (by omega)]
      cases hp
      exact ⟨by simpa only [ht] using h.top_pos, hn, by simpa only [ht] using hle⟩
    · cases hp
  fresh := by
    intro h n p hn hp r hr
    split at hp
    · next hle =>
      have ht : (UInt64.ofNat h.top).toNat = h.top := by
        rw [UInt64.toNat_ofNat', Nat.mod_eq_of_lt (by omega)]
      cases hp
      right
      simpa only [ht] using le_top hr
    · cases hp

end Heap
