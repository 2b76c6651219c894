import Mathlib.Data.Multiset.AddSub
import Mathlib.Data.Multiset.MapFold
import Mathlib.Data.Multiset.Replicate
import Mathlib.Logic.Function.Basic
import Mathlib.Logic.Relation

/-!
# Counted references

A protocol for objects that are published to several holders and freed by whoever drops
the last reference. References and objects live in slots that are carved and then reused
through free lists. A published object starts with as many references pending as its
counter says; a reference is linked when its slot is taken, and dropping it decrements the
counter.

Slots of references are carved once. Slots of objects may be carved again while they are in
use, but for those that satisfy `p`, and nothing is said of the counters of the others. The
invariant `Inv` says where every slot of a reference and every slot with `p` is and that the
counters of the latter count references. It is preserved by every step, in any order of the
holders' steps.
-/

namespace RefCount

variable {ν ρ κ : Type*} [DecidableEq κ]

/-- Inventories of the reference slots and of the objects, over all holders. -/
structure State (ν ρ κ : Type*) where
  nodes : Multiset ν
  freeNodes : Multiset ν
  heldNodes : Multiset ν
  refs : Multiset ρ
  pending : Multiset κ
  objects : Multiset κ
  freeObjects : Multiset κ
  live : Multiset κ
  created : Multiset κ
  dying : Multiset κ
  abandoned : Multiset κ
  count : κ → Nat

namespace State

/-- The objects that linked and pending references lead to, with multiplicity. -/
def targets (target : ρ → κ) (s : State ν ρ κ) : Multiset κ :=
  s.refs.map target + s.pending

/-- The objects that a free list, a stage of their life or a reference names. -/
def named (target : ρ → κ) (s : State ν ρ κ) : Multiset κ :=
  s.freeObjects + s.live + s.created + s.dying + s.targets target

/-- An object becomes live; its slot leaves the free list or is carved. -/
def create (s : State ν ρ κ) (c : κ) (objects free : Multiset κ) : State ν ρ κ :=
  { s with
    objects := objects
    freeObjects := free
    live := c ::ₘ s.live
    created := c ::ₘ s.created
    count := Function.update s.count c 0 }

/-- A created object is published to `k` holders. -/
def publish (s : State ν ρ κ) (c : κ) (k : Nat) (created : Multiset κ) : State ν ρ κ :=
  { s with
    created := created
    pending := Multiset.replicate k c + s.pending
    abandoned := if k = 0 then c ::ₘ s.abandoned else s.abandoned
    count := Function.update s.count c k }

/-- A reference is dropped and leaves `k` for the counter of its object, which may be freed
if this was the last one. -/
def drop (slot : ρ → ν) (target : ρ → κ) (s : State ν ρ κ) (r : ρ) (refs : Multiset ρ) (k : Nat)
    (last : Bool) : State ν ρ κ :=
  { s with
    refs := refs
    heldNodes := slot r ::ₘ s.heldNodes
    dying := if last then target r ::ₘ s.dying else s.dying
    count := Function.update s.count (target r) k }

/-- An object is freed and its slot reused. -/
def free (s : State ν ρ κ) (c : κ) (dying : Multiset κ) : State ν ρ κ :=
  { s with
    dying := dying
    live := s.live.erase c
    freeObjects := c ::ₘ s.freeObjects }

end State

/-- The steps of the protocol. -/
inductive Step (slot : ρ → ν) (target : ρ → κ) (p : κ → Prop) (s : State ν ρ κ) :
    State ν ρ κ → Prop where
  | takeFree (n : ν) (rest : Multiset ν) (h : s.freeNodes = n ::ₘ rest) :
      Step slot target p s { s with freeNodes := rest, heldNodes := n ::ₘ s.heldNodes }
  | takeFresh (n : ν) (h : n ∉ s.nodes) :
      Step slot target p s { s with nodes := n ::ₘ s.nodes, heldNodes := n ::ₘ s.heldNodes }
  | putBack (n : ν) (rest : Multiset ν) (h : s.heldNodes = n ::ₘ rest) :
      Step slot target p s { s with heldNodes := rest, freeNodes := n ::ₘ s.freeNodes }
  | createFree (c : κ) (rest : Multiset κ) (h : s.freeObjects = c ::ₘ rest) :
      Step slot target p s (s.create c s.objects rest)
  | createFresh (c : κ) (h : p c → c ∉ s.objects) :
      Step slot target p s (s.create c (c ::ₘ s.objects) s.freeObjects)
  | publish (c : κ) (k : Nat) (rest : Multiset κ) (h : s.created = c ::ₘ rest) :
      Step slot target p s (s.publish c k rest)
  | link (r : ρ) (held : Multiset ν) (pending : Multiset κ)
      (hn : s.heldNodes = slot r ::ₘ held) (hc : s.pending = target r ::ₘ pending) :
      Step slot target p s
        { s with heldNodes := held, pending := pending, refs := r ::ₘ s.refs }
  | drop (r : ρ) (rest : Multiset ρ) (k : Nat) (last : Bool) (h : s.refs = r ::ₘ rest)
      (hk : p (target r) → 0 < s.count (target r) →
        k = s.count (target r) - 1 ∧ (last = true ↔ s.count (target r) = 1)) :
      Step slot target p s (s.drop slot target r rest k last)
  | free (c : κ) (rest : Multiset κ) (h : s.dying = c ::ₘ rest) :
      Step slot target p s (s.free c rest)

/-- Every slot of a reference is in one place, and so is every slot of an object with `p`, which
is in one stage of its life while it is live. The counter of such an object counts the
references that lead to it once it is published. -/
structure Inv (slot : ρ → ν) (target : ρ → κ) (p : κ → Prop) (s : State ν ρ κ) : Prop where
  nodes_eq : s.nodes = s.freeNodes + s.heldNodes + s.refs.map slot
  nodup_nodes : s.nodes.Nodup
  carved : ∀ c ∈ s.named target, c ∈ s.objects
  objects_eq : ∀ c, p c → s.objects.count c = s.freeObjects.count c + s.live.count c
  objects_le : ∀ c, p c → s.objects.count c ≤ 1
  live_count : ∀ c, p c → s.live.count c = s.created.count c + s.dying.count c +
    s.abandoned.count c + if c ∈ s.targets target then 1 else 0
  count_eq : ∀ c ∈ s.live, p c → c ∉ s.created → s.count c = (s.targets target).count c

namespace Inv

variable {slot : ρ → ν} {target : ρ → κ} {p q : κ → Prop} {s t : State ν ρ κ}

/-- The invariant of fewer objects. -/
theorem mono (h : Inv slot target p s) (hq : ∀ c, q c → p c) : Inv slot target q s where
  nodes_eq := h.nodes_eq
  nodup_nodes := h.nodup_nodes
  carved := h.carved
  objects_eq c hc := h.objects_eq c (hq c hc)
  objects_le c hc := h.objects_le c (hq c hc)
  live_count c hc := h.live_count c (hq c hc)
  count_eq c hl hc := h.count_eq c hl (hq c hc)

/-- An object is live at most once. -/
theorem live_count_le (h : Inv slot target p s) {c : κ} (hp : p c) : s.live.count c ≤ 1 := by
  have hle := h.objects_le c hp
  have heq := h.objects_eq c hp
  omega

/-- An object that a reference leads to is live, published and not being freed. -/
theorem of_target (h : Inv slot target p s) {c : κ} (hp : p c) (hc : c ∈ s.targets target) :
    c ∈ s.live ∧ c ∉ s.created ∧ c ∉ s.dying ∧ c ∉ s.abandoned := by
  have hl := h.live_count_le hp
  have he := h.live_count c hp
  rw [if_pos hc] at he
  refine ⟨Multiset.count_pos.mp (by omega), ?_, ?_, ?_⟩ <;>
    exact Multiset.count_eq_zero.mp (by omega)

/-- A created object is live, and no reference leads to it. -/
theorem of_created (h : Inv slot target p s) {c : κ} (hp : p c) (hc : c ∈ s.created) :
    c ∈ s.live ∧ c ∉ s.targets target := by
  have hpos := Multiset.count_pos.mpr hc
  have he := h.live_count c hp
  exact ⟨Multiset.count_pos.mp (by omega), fun ht ↦ (h.of_target hp ht).2.1 hc⟩

/-- An object being freed is live, published, and no reference leads to it. -/
theorem of_dying (h : Inv slot target p s) {c : κ} (hp : p c) (hc : c ∈ s.dying) :
    c ∈ s.live ∧ c ∉ s.created ∧ c ∉ s.targets target := by
  have hpos := Multiset.count_pos.mpr hc
  have he := h.live_count c hp
  have hl := h.live_count_le hp
  refine ⟨Multiset.count_pos.mp (by omega), Multiset.count_eq_zero.mp (by omega),
    fun ht ↦ (h.of_target hp ht).2.2.1 hc⟩

/-- The counter of an object that a reference leads to is the number of its references. -/
theorem count_of_target (h : Inv slot target p s) {c : κ} (hp : p c)
    (hc : c ∈ s.targets target) : s.count c = (s.targets target).count c :=
  h.count_eq c (h.of_target hp hc).1 hp (h.of_target hp hc).2.1

/-- The empty state. -/
theorem empty (count : κ → Nat) :
    Inv slot target p (⟨0, 0, 0, 0, 0, 0, 0, 0, 0, 0, 0, count⟩ : State ν ρ κ) where
  nodes_eq := by simp
  nodup_nodes := Multiset.nodup_zero
  carved := by simp [State.named, State.targets]
  objects_eq c _ := by simp
  objects_le c _ := by simp
  live_count c _ := by simp [State.targets]
  count_eq c hc := absurd hc (Multiset.notMem_zero c)

private theorem of_same_objects (h : Inv slot target p s) (hn : t.nodes =
    t.freeNodes + t.heldNodes + t.refs.map slot) (hd : t.nodes.Nodup)
    (ho : t.objects = s.objects) (hf : t.freeObjects = s.freeObjects) (hl : t.live = s.live)
    (hc : t.created = s.created) (hy : t.dying = s.dying) (ha : t.abandoned = s.abandoned)
    (hk : t.count = s.count) (ht : t.targets target = s.targets target) :
    Inv slot target p t where
  nodes_eq := hn
  nodup_nodes := hd
  carved := by
    rw [State.named, ho, hf, hl, hc, hy, ht]
    exact h.carved
  objects_eq := by
    rw [ho, hf, hl]
    exact h.objects_eq
  objects_le := ho ▸ h.objects_le
  live_count := by
    rw [hl, hc, hy, ha, ht]
    exact h.live_count
  count_eq := by
    rw [hl, hc, hk, ht]
    exact h.count_eq

private theorem create (h : Inv slot target p s) {c : κ} {objects free : Multiset κ}
    (hsub : ∀ x, x ∈ s.objects → x ∈ objects) (hfree : ∀ x ∈ free, x ∈ s.freeObjects)
    (hc : c ∈ objects)
    (ho : ∀ x, p x → objects.count x = free.count x + (c ::ₘ s.live).count x)
    (hle : ∀ x, p x → objects.count x ≤ 1) : Inv slot target p (s.create c objects free) where
  nodes_eq := h.nodes_eq
  nodup_nodes := h.nodup_nodes
  carved x hx := by
    have hcarved := h.carved x
    simp only [State.named, State.targets, Multiset.mem_add] at hcarved
    simp only [State.create, State.named, State.targets, Multiset.mem_add,
      Multiset.mem_cons] at hx
    by_cases hxc : x = c
    · exact hxc ▸ hc
    · apply hsub x
      have hf := hfree x
      tauto
  objects_eq := ho
  objects_le := hle
  live_count x hp := by
    have hx := h.live_count x hp
    change (c ::ₘ s.live).count x = (c ::ₘ s.created).count x + s.dying.count x +
      s.abandoned.count x + if x ∈ s.targets target then 1 else 0
    rw [Multiset.count_cons, Multiset.count_cons]
    omega
  count_eq x hl hp hx := by
    obtain ⟨hxc, hn⟩ := not_or.mp (mt Multiset.mem_cons.mpr hx)
    have hm := (Multiset.mem_cons.mp hl).resolve_left hxc
    change Function.update s.count c 0 x = (s.targets target).count x
    rw [Function.update_of_ne hxc]
    exact h.count_eq x hm hp hn

private theorem count_targets_publish (target : ρ → κ) (s : State ν ρ κ) (c : κ) (k : Nat)
    (rest : Multiset κ) (x : κ) : ((s.publish c k rest).targets target).count x =
      (s.targets target).count x + if x = c then k else 0 := by
  simp only [State.targets, State.publish, Multiset.count_add, Multiset.count_replicate, eq_comm]
  omega

private theorem publish (h : Inv slot target p s) {c : κ} {rest : Multiset κ} (k : Nat)
    (hr : s.created = c ::ₘ rest) : Inv slot target p (s.publish c k rest) := by
  have hm : c ∈ s.created := hr ▸ Multiset.mem_cons_self c rest
  have hcount := count_targets_publish target s c k rest
  refine ⟨h.nodes_eq, h.nodup_nodes, fun x hx ↦ ?_, h.objects_eq, h.objects_le,
    fun x hp ↦ ?_, fun x hx hp hn ↦ ?_⟩
  · have hcarved := h.carved x
    simp only [State.named, State.targets, hr, Multiset.mem_add, Multiset.mem_cons] at hcarved
    simp only [State.publish, State.named, State.targets, Multiset.mem_add] at hx
    have hrep : x ∈ Multiset.replicate k c → x = c := Multiset.eq_of_mem_replicate
    tauto
  · have hb := h.live_count x hp
    rw [hr, Multiset.count_cons] at hb
    simp only [← Multiset.count_pos, hcount] at hb ⊢
    change s.live.count x = rest.count x + s.dying.count x +
      (if k = 0 then c ::ₘ s.abandoned else s.abandoned).count x + _
    by_cases hxc : x = c
    · subst hxc
      have hz := Multiset.count_eq_zero.mpr (h.of_created hp hm).2
      -- the object moves from the created ones to the abandoned or to the referenced ones
      by_cases hk : k = 0
      · simp only [hk, hz, ite_true, ite_false, Multiset.count_cons_self, Nat.add_zero,
          Nat.lt_irrefl] at hb ⊢
        omega
      · have hpos : 0 < k := Nat.pos_of_ne_zero hk
        simp only [hk, hz, hpos, ite_true, ite_false, Nat.zero_add, Nat.lt_irrefl] at hb ⊢
        omega
    · have ha : (if k = 0 then c ::ₘ s.abandoned else s.abandoned).count x =
          s.abandoned.count x := by
        split
        · exact Multiset.count_cons_of_ne hxc _
        · rfl
      simp only [hxc, ite_false, Nat.add_zero] at hb ⊢
      rw [ha, hb]
  · rw [hcount]
    change Function.update s.count c k x = _
    by_cases hxc : x = c
    · subst hxc
      simp [Multiset.count_eq_zero.mpr (h.of_created hp hm).2]
    · have hm : x ∉ s.created := by
        rw [hr, Multiset.mem_cons]
        exact not_or.mpr ⟨hxc, hn⟩
      rw [Function.update_of_ne hxc, if_neg hxc, Nat.add_zero]
      exact h.count_eq x hx hp hm

private theorem drop (h : Inv slot target p s) {r : ρ} {rest : Multiset ρ} {k : Nat} {last : Bool}
    (hr : s.refs = r ::ₘ rest) (hk : p (target r) → 0 < s.count (target r) →
      k = s.count (target r) - 1 ∧ (last = true ↔ s.count (target r) = 1)) :
    Inv slot target p (s.drop slot target r rest k last) := by
  have ht : s.targets target =
      target r ::ₘ (s.drop slot target r rest k last).targets target := by
    simp [State.targets, State.drop, hr]
  have hm : target r ∈ s.targets target := ht ▸ Multiset.mem_cons_self _ _
  -- what the step does to a counter that counts
  have hcount (hp : p (target r)) : k = ((s.drop slot target r rest k last).targets target).count
      (target r) ∧ (last = true ↔ k = 0) := by
    have hc := h.count_of_target hp hm
    rw [ht, Multiset.count_cons_self] at hc
    obtain ⟨hk, hlast⟩ := hk hp (by omega)
    rw [hlast]
    omega
  refine ⟨?_, h.nodup_nodes, fun x hx ↦ ?_, h.objects_eq, h.objects_le, fun x hp ↦ ?_,
    fun x hx hp hn ↦ ?_⟩
  · simp only [State.drop]
    rw [h.nodes_eq, hr, Multiset.map_cons, Multiset.add_cons, Multiset.add_cons,
      Multiset.cons_add]
  · have hcarved := h.carved x
    rw [State.named, ht] at hcarved
    simp only [State.drop, State.named, State.targets, Multiset.mem_add,
      Multiset.mem_cons] at hcarved hx
    have hd : x ∈ (if last then target r ::ₘ s.dying else s.dying) →
        x = target r ∨ x ∈ s.dying := by
      split
      · exact Multiset.mem_cons.mp
      · exact .inr
    tauto
  · have hb := h.live_count x hp
    simp only [← Multiset.count_pos] at hb ⊢
    rw [ht, Multiset.count_cons] at hb
    change s.live.count x = s.created.count x + (if last then
      target r ::ₘ s.dying else s.dying).count x + s.abandoned.count x + _
    by_cases hx : x = target r
    · subst hx
      obtain ⟨hk, hlast⟩ := hcount hp
      rw [if_pos rfl, if_pos (by omega)] at hb
      split
      · next h1 =>
        -- the last reference: the object starts to be freed
        rw [hlast] at h1
        rw [Multiset.count_cons_self, if_neg (by omega)]
        omega
      · next h1 =>
        rw [hlast] at h1
        rw [if_pos (by omega)]
        exact hb
    · have hd : (if last then target r ::ₘ s.dying else s.dying).count x = s.dying.count x := by
        split
        · exact Multiset.count_cons_of_ne hx _
        · rfl
      rw [if_neg hx, Nat.add_zero] at hb
      rw [hd, hb]
  · have hb := h.count_eq x hx hp hn
    rw [ht, Multiset.count_cons] at hb
    change Function.update s.count (target r) k x = _
    by_cases hxr : x = target r
    · subst hxr
      rw [Function.update_self]
      exact (hcount hp).1
    · rw [Function.update_of_ne hxr, hb, if_neg hxr, Nat.add_zero]

private theorem free (h : Inv slot target p s) {c : κ} {rest : Multiset κ}
    (hr : s.dying = c ::ₘ rest) : Inv slot target p (s.free c rest) := by
  have hm : c ∈ s.dying := hr ▸ Multiset.mem_cons_self c rest
  refine ⟨h.nodes_eq, h.nodup_nodes, fun x hx ↦ ?_, fun x hp ↦ ?_, h.objects_le,
    fun x hp ↦ ?_, fun x hx ↦ ?_⟩
  · have hcarved := h.carved x
    simp only [State.named, hr, Multiset.mem_add, Multiset.mem_cons] at hcarved
    simp only [State.free, State.named, State.targets, Multiset.mem_add,
      Multiset.mem_cons] at hx
    have hl : x ∈ s.live.erase c → x ∈ s.live := Multiset.mem_of_mem_erase
    simp only [State.targets, Multiset.mem_add] at hcarved
    tauto
  · have ho := h.objects_eq x hp
    change s.objects.count x = (c ::ₘ s.freeObjects).count x + (s.live.erase c).count x
    rw [Multiset.count_cons]
    by_cases hx : x = c
    · subst hx
      have hl := Multiset.count_pos.mpr (h.of_dying hp hm).1
      rw [Multiset.count_erase_self, if_pos rfl]
      omega
    · rw [Multiset.count_erase_of_ne hx, if_neg hx]
      omega
  · have hb := h.live_count x hp
    rw [hr, Multiset.count_cons] at hb
    change (s.live.erase c).count x = s.created.count x + rest.count x +
      s.abandoned.count x + if x ∈ s.targets target then 1 else 0
    by_cases hx : x = c
    · subst hx
      have ht := (h.of_dying hp hm).2.2
      rw [Multiset.count_erase_self, hb, if_pos rfl]
      omega
    · rw [Multiset.count_erase_of_ne hx, hb, if_neg hx, Nat.add_zero]
  · exact h.count_eq x (Multiset.mem_of_mem_erase hx)

/-- Every step keeps the invariant. -/
theorem step (h : Inv slot target p s) (hs : Step slot target p s t) : Inv slot target p t := by
  cases hs with
  | takeFree n rest hf =>
    refine h.of_same_objects ?_ h.nodup_nodes rfl rfl rfl rfl rfl rfl rfl rfl
    simp only
    rw [h.nodes_eq, hf, Multiset.add_cons, Multiset.cons_add]
  | takeFresh n hf =>
    refine h.of_same_objects ?_ (Multiset.nodup_cons.mpr ⟨hf, h.nodup_nodes⟩)
      rfl rfl rfl rfl rfl rfl rfl rfl
    simp only
    rw [h.nodes_eq, Multiset.add_cons, Multiset.cons_add]
  | putBack n rest hf =>
    refine h.of_same_objects ?_ h.nodup_nodes rfl rfl rfl rfl rfl rfl rfl rfl
    simp only
    rw [h.nodes_eq, hf, Multiset.add_cons, Multiset.cons_add, Multiset.cons_add,
      Multiset.cons_add]
  | createFree c rest hf =>
    have hc : c ∈ s.named target := by simp [State.named, hf]
    apply h.create (fun _ ↦ id) _ (h.carved c hc) _ h.objects_le
    · intro x hx
      rw [hf]
      exact Multiset.mem_cons_of_mem hx
    · intro x hp
      have ho := h.objects_eq x hp
      rw [hf, Multiset.count_cons] at ho
      rw [Multiset.count_cons]
      omega
  | createFresh c hf =>
    apply h.create (fun _ ↦ Multiset.mem_cons_of_mem) (fun _ ↦ id) (Multiset.mem_cons_self _ _)
    · intro x hp
      have ho := h.objects_eq x hp
      rw [Multiset.count_cons, Multiset.count_cons]
      omega
    · intro x hp
      rw [Multiset.count_cons]
      split
      · next hx =>
        subst hx
        rw [Multiset.count_eq_zero.mpr (hf hp)]
      · exact h.objects_le x hp
  | publish c k rest hr => exact h.publish k hr
  | link r held pending hn hc =>
    refine h.of_same_objects ?_ h.nodup_nodes rfl rfl rfl rfl rfl rfl rfl ?_
    · simp only
      rw [h.nodes_eq, hn, Multiset.map_cons, Multiset.add_cons, Multiset.add_cons,
        Multiset.cons_add]
    · simp only [State.targets]
      rw [hc, Multiset.map_cons, Multiset.add_cons, Multiset.cons_add]
  | drop r rest k last hr hk => exact h.drop hr hk
  | free c rest hr => exact h.free hr

/-- Every run keeps the invariant. -/
theorem run (h : Inv slot target p s) (hs : Relation.ReflTransGen (Step slot target p) s t) :
    Inv slot target p t := by
  induction hs with
  | refl => exact h
  | tail _ hst ih => exact ih.step hst

end Inv
end RefCount
