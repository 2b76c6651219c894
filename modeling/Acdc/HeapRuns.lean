import Acdc.Base.Ownership
import Acdc.Accounting
import Acdc.Collections
import Acdc.ObjectProps
import Acdc.Quanta

/-!
# Runs over memory

The threads together with the memory of their collections. A step that builds, traverses or
deallocates a collection (`src/acdc.c:313,337–340,572–576`) does to the heap what
`allocate_LSClass`, `traverse_LSClass` and `deallocate_LSClass` do; the other steps leave the
heap. Under every schedule the live regions are those of the live collections, so that no step
accesses memory that is not live, none frees memory twice, and none loses memory. This is for
options without negative delays and ratios, for collections that the builders can count, and
for class buffers that no thread goes round.
-/

namespace Acdc

open Fallible Heap Objects

variable {σ : Type}

/-- The threads, the addresses at which their collections start, and the heap. -/
structure HeapSys (σ : Type) where
  sys : Sys σ
  starts : Slot → UInt64
  heap : Heap

section Model

variable (A : Allocator) (g : GOptions) (R : Generator σ)

/-- What a step of thread `i` to `s` does to the memory of the collections. A traversal and a
deallocation get more fuel than the collection has objects. -/
def heapPart (i : Nat) (S : HeapSys σ) (s : Sys σ) : Except Stop ((Slot → UInt64) × Heap) :=
  match (S.sys.threads i).pc, (s.threads i).pc with
  | .looping, .placing c => do
    let d := s.classes c
    let (start, h) ← Objects.allocateLSClass A g S.heap d.type d.objectSize d.numObjects
    return (Function.update S.starts c start, h)
  | .accessing _ (node :: _), _ => do
    let d := S.sys.classes node.lsClass
    let h ← traverseLSClass g (d.numObjects.toNat + 1) d (S.starts node.lsClass) S.heap
    return (S.starts, h)
  | .deallocating node, _ => do
    let d := S.sys.classes node.lsClass
    let h ← Objects.deallocateLSClass A g (d.numObjects.toNat + 1) d (S.starts node.lsClass)
      S.heap
    return (S.starts, h)
  | _, _ => return (S.starts, S.heap)

/-- One step of thread `i` with its effect on memory. -/
def heapStep (i : Nat) (S : HeapSys σ) : Except Stop (HeapSys σ) := do
  let s ← step g R i S.sys
  let (starts, h) ← heapPart A g i S s
  return ⟨s, starts, h⟩

/-- Before the first step no memory is allocated. -/
def runHeap : HeapSys σ := ⟨runAcdc g R, fun _ ↦ 0, .empty⟩

/-- States of the runs over memory. -/
inductive HeapReachable : HeapSys σ → Prop where
  | start (h : Defined g) : HeapReachable (runHeap g R)
  | step {S S' : HeapSys σ} (i : Nat) (hS : HeapReachable S) (hi : i < g.threads)
      (h : heapStep A g R i S = .ok S') : HeapReachable S'

end Model

variable {A : Allocator} {g : GOptions} {R : Generator σ} {i : Nat} {S S' : HeapSys σ}
  {s : Sys σ}

/-- A step over memory is a step of the threads. -/
theorem step_of_heapStep (h : heapStep A g R i S = .ok S') : step g R i S.sys = .ok S'.sys := by
  obtain ⟨s, hs, h⟩ := bind_eq_ok h
  obtain ⟨p, -, h⟩ := bind_eq_ok h
  cases h
  exact hs

/-- A run over memory is a run of the threads. -/
theorem HeapReachable.sys (hS : HeapReachable A g R S) : Reachable g R S.sys := by
  induction hS with
  | start h => exact .start h
  | step i _ hi h ih => exact .step i ih hi (step_of_heapStep h)

/-! ### Collections and their descriptors -/

section

variable {d d' : LSClass} {start : UInt64} {objs : List UInt64} {h h' : Heap}

theorem regions_of_initial (hi : d'.initial = d.initial) (start : UInt64)
    (objs : List UInt64) : regions d' start objs = regions d start objs := by
  obtain ⟨-, hs, -, hn, ht, -⟩ := LSClass.mk.inj hi
  simp only [regions, hs, hn, ht]

/-- The memory of a collection does not depend on its counter. -/
theorem collection_of_initial (hi : d'.initial = d.initial) (C : Collection d start objs h) :
    Collection d' start objs h := by
  have hr := regions_of_initial hi start objs
  obtain ⟨-, hs, -, hn, ht, -⟩ := LSClass.mk.inj hi
  constructor
  · rw [hn]
    exact C.length
  · rw [ht]
    exact C.linked
  · rw [hs]
    exact C.layout
  · rw [hr]
    exact C.live
  · rw [hr, hs]
    exact C.within

/-- A collection stays as long as its regions are live and unchanged. -/
theorem collection_of_sameBytes (C : Collection d start objs h) (hs : 16 ≤ d.objectSize.toNat)
    (hl : ∃ rest, h'.live.Perm (regions d start objs ++ rest))
    (hb : SameBytes (regions d start objs) h h') : Collection d start objs h' := by
  have hle := headerSize_le hs d.type
  have hh : Memory.SameHeaders (headerSize d.type).toNat objs h.bytes h'.bytes := by
    intro o ho x hx hx'
    obtain ⟨r, hr, hw⟩ := C.within o ho
    apply hb r hr x (hw.has _)
    exact object_has.mpr ⟨hx, by omega⟩
  have C' : Collection d start objs { h with bytes := h'.bytes } :=
    C.congr (.refl _) ⟨C.layout.covers, C.layout.apart⟩ hh
  refine ⟨C.length, C'.linked, ⟨?_, C.layout.apart⟩, hl, C.within⟩
  intro o ho
  obtain ⟨r, hr, hw⟩ := C.within o ho
  obtain ⟨rest, hp⟩ := hl
  exact ⟨r, hp.mem_iff.mpr (List.mem_append_left rest hr), hw⟩

/-- The payloads of a collection are in its regions. -/
theorem mem_regions_of_inPayload (C : Collection d start objs h) {offset : UInt64}
    (ho : offset.toNat ≤ d.objectSize.toNat) {x : Nat}
    (hx : InPayload d.objectSize offset objs x) : ∃ r ∈ regions d start objs, r.Has x := by
  obtain ⟨o, hm, hp⟩ := hx
  obtain ⟨r, hr, hw⟩ := C.within o hm
  refine ⟨r, hr, hw.has ?_⟩
  simp only [Region.Has, payload] at hp
  exact object_has.mpr ⟨by omega, by omega⟩

end

/-! ### Sizes -/

/-- A builder counts the objects of a collection in an `int`. -/
structure Sized (d : LSClass) : Prop where
  size_ge : 16 ≤ d.objectSize.toNat
  size_lt : d.objectSize.toNat < 2 ^ 31
  num_lt : 2 * d.numObjects.toNat < 2 ^ 31

/-- Options under which every collection is so small. -/
structure SmallCollections (g : GOptions) : Prop where
  draws : DrawRanges g
  fixed : g.fixedNumberOfObjects.toInt < 2 ^ 30
  drawn : g.fixedNumberOfObjects.toInt ≤ 0 →
    (g.maxObjectSc.toNatClampNeg - g.minObjectSc.toNatClampNeg + 1) *
      (g.maxLiveness.toNatClampNeg - g.minLiveness.toNatClampNeg + 1) < 2 ^ 15

theorem Sized.of_initial {d d' : LSClass} (hi : d'.initial = d.initial) (h : Sized d) :
    Sized d' := by
  obtain ⟨-, hs, -, hn, -, -⟩ := LSClass.mk.inj hi
  exact ⟨hs ▸ h.size_ge, hs ▸ h.size_lt, hn ▸ h.num_lt⟩

/-- The number of objects after the overrides is the drawn one or the fixed one. -/
theorem numObjects_prepareProps (g : GOptions) (p : ObjectProps) :
    (prepareProps g p).numObjects =
      if 0 < g.fixedNumberOfObjects then g.fixedNumberOfObjects.toUInt32 else p.numObjects := by
  unfold prepareProps
  dsimp only
  split <;> split <;> split <;> first | rfl | (split <;> rfl)

/-- A draw has few objects when the ranges of its lifetimes and size-classes are small. -/
theorem numObjects_lt_of_draw (hg : SmallCollections g)
    (h0 : g.fixedNumberOfObjects.toInt ≤ 0) {rand rand' : σ} {p : ObjectProps}
    (hp : getRandomObjectProps g R rand = .ok (p, rand')) : p.numObjects.toNat < 2 ^ 30 := by
  have hlb := (livenessAt_bounds (R := R) hg.draws rand).2
  have hsb := (sizeclassAt_bounds (R := R) hg.draws rand).2
  have h1 := hg.draws.liveness_pos
  have h2 := hg.draws.sc_nonneg
  obtain ⟨q, hq, hr⟩ := getRandomObjectProps_spec (R := R) hg.draws rand
  rw [hp] at hr
  split at hr
  · obtain ⟨rfl, -⟩ := Prod.mk.inj (Except.ok.inj hr)
    have hd := hg.drawn h0
    have hsc : g.maxObjectSc.toNatClampNeg - sizeclassAt g R rand + 1 ≤
        g.maxObjectSc.toNatClampNeg - g.minObjectSc.toNatClampNeg + 1 := by
      simp only [Int32.toNatClampNeg]
      omega
    have hlt : g.maxLiveness.toNatClampNeg - livenessAt g R rand + 1 ≤
        g.maxLiveness.toNatClampNeg - g.minLiveness.toNatClampNeg + 1 := by
      simp only [Int32.toNatClampNeg]
      omega
    calc
      p.numObjects.toNat ≤ objectCount g (sizeclassAt g R rand) (livenessAt g R rand) := by
        rw [hq.num]
        exact Nat.mod_le _ _
      _ = ((g.maxObjectSc.toNatClampNeg - sizeclassAt g R rand + 1) *
          (g.maxLiveness.toNatClampNeg - livenessAt g R rand + 1)) ^ 2 := (Nat.mul_pow ..).symm
      _ < (2 ^ 15) ^ 2 :=
        Nat.pow_lt_pow_left ((Nat.mul_le_mul hsc hlt).trans_lt hd) (by decide)
  · cases hr

/-- Every collection of a run is small. -/
theorem sized_newDescriptor (hg : SmallCollections g) {rand rand' : σ} {p₀ p : ObjectProps}
    {k : Nat} (hp : getRandomObjectProps g R rand = .ok (p₀, rand'))
    (he : p = prepareProps g p₀) (hb : (newDescriptor g i k p).Built g) :
    Sized (newDescriptor g i k p) := by
  have h1 := hg.draws.sc_nonneg
  have h2 := hg.draws.sc_lt
  obtain ⟨hge, hlt, -⟩ := inRange_newDescriptor he hb (by omega) hg.draws.sc_le
  refine ⟨hge, hlt, ?_⟩
  have hz : (0 : Int32).toInt = 0 := rfl
  have hn := numObjects_prepareProps g p₀
  rw [← he] at hn
  simp only [newDescriptor, UInt32.toNat_toUInt64, hn]
  split
  · next hf =>
    rw [Int32.lt_iff_toInt_lt, hz] at hf
    have := toNat_toUInt32 (show 0 ≤ g.fixedNumberOfObjects.toInt by omega)
    have := hg.fixed
    omega
  · next hf =>
    rw [Int32.lt_iff_toInt_lt, hz] at hf
    have := numObjects_lt_of_draw hg (by omega) hp
    omega

/-! ### The invariant -/

/-- The memory of the live collections: each has its regions, and these are all that is live. -/
structure HeapInv (S : HeapSys σ) (objs : Slot → List UInt64) : Prop where
  sized : ∀ c ∈ live S.sys.log, Sized (S.sys.classes c)
  collections : ∀ c ∈ live S.sys.log,
    Collection (S.sys.classes c) (S.starts c) (objs c) S.heap
  owned : OwnedBy S.heap (live S.sys.log) fun c ↦
    regions (S.sys.classes c) (S.starts c) (objs c)

namespace HeapInv

variable {objs : Slot → List UInt64} {h' : Heap} {c : Slot}

/-- Steps that neither allocate nor deallocate leave the memory of the collections. -/
theorem quiet (H : HeapInv S objs) (hq : Quiet S.sys s) :
    HeapInv ⟨s, S.starts, S.heap⟩ objs where
  sized c hc := by
    rw [hq.live] at hc
    exact (H.sized c hc).of_initial (hq.initial c)
  collections c hc := by
    rw [hq.live] at hc
    exact collection_of_initial (hq.initial c) (H.collections c hc)
  owned := by
    change OwnedBy S.heap (live s.log) _
    rw [hq.live]
    exact H.owned.congr fun c _ ↦ regions_of_initial (hq.initial c) _ _

/-- A run that writes payloads of one collection keeps all of them. -/
theorem store (H : HeapInv S objs) (hc : c ∈ live S.sys.log)
    (G : Grows [] (InPayload (S.sys.classes c).objectSize
      (headerSize (S.sys.classes c).type) (objs c)) S.heap h') :
    HeapInv ⟨S.sys, S.starts, h'⟩ objs where
  sized := H.sized
  collections c' hc' := by
    have hs := (H.sized c hc).size_ge
    by_cases hcc : c' = c
    · subst hcc
      exact ((H.collections c' hc').grows hs G).1
    · apply collection_of_sameBytes (H.collections c' hc') (H.sized c' hc').size_ge
        ((H.owned.store G).exists_perm hc')
      apply H.owned.sameBytes_of_store hc' hc (Ne.symm hcc) _ G
      intro x hx
      exact mem_regions_of_inPayload (H.collections c hc) (headerSize_le hs _) hx
  owned := H.owned.store G

/-- A new collection gets the regions that its builder allocates. -/
theorem allocate (H : HeapInv S objs) {start : UInt64} {os : List UInt64}
    (hl : live s.log = c ::ₘ live S.sys.log) (hc : c ∉ live S.sys.log)
    (hne : ∀ c', c' ≠ c → s.classes c' = S.sys.classes c') (hz : Sized (s.classes c))
    (C : Collection (s.classes c) start os h')
    (G : Grows (regions (s.classes c) start os) (fun _ ↦ False) S.heap h') :
    HeapInv ⟨s, Function.update S.starts c start, h'⟩ (Function.update objs c os) := by
  have hold : ∀ c' ∈ live S.sys.log, c' ≠ c := by
    rintro c' hc' rfl
    exact hc hc'
  have hreg : (fun c' ↦ regions (s.classes c') (Function.update S.starts c start c')
      (Function.update objs c os c')) = Function.update (fun c' ↦ regions (s.classes c')
        (S.starts c') (objs c')) c (regions (s.classes c) start os) := by
    ext1 c'
    by_cases hcc : c' = c
    · subst hcc
      simp only [Function.update_self]
    · simp only [Function.update_of_ne hcc]
  constructor
  · intro c' hc'
    change c' ∈ live s.log at hc'
    obtain rfl | hc' := Multiset.mem_cons.mp (hl ▸ hc')
    · exact hz
    · exact hne c' (hold c' hc') ▸ H.sized c' hc'
  · intro c' hc'
    change c' ∈ live s.log at hc'
    obtain rfl | hc' := Multiset.mem_cons.mp (hl ▸ hc')
    · simpa only [Function.update_self] using C
    · have hcc := hold c' hc'
      simp only [Function.update_of_ne hcc, hne c' hcc]
      apply collection_of_sameBytes (H.collections c' hc') (H.sized c' hc').size_ge
      · obtain ⟨rest, hp⟩ := H.owned.exists_perm hc'
        refine ⟨regions (s.classes c) start os ++ rest, G.live.trans ?_⟩
        calc
          (regions (s.classes c) start os ++ S.heap.live).Perm
              (regions (s.classes c) start os ++ (regions (S.sys.classes c') (S.starts c')
                (objs c') ++ rest)) := hp.append_left _
          List.Perm _ _ := by
            rw [← List.append_assoc, ← List.append_assoc]
            exact List.perm_append_comm.append_right rest
      · exact H.owned.sameBytes_of_grows hc' G
  · change OwnedBy h' (live s.log) _
    rw [hreg, hl]
    apply OwnedBy.allocate _ hc G
    apply H.owned.congr
    intro c' hc'
    rw [hne c' (hold c' hc')]

/-- A collection leaves with its regions. -/
theorem release (H : HeapInv S objs) (hc : c ∈ live S.sys.log)
    (hl : live s.log = (live S.sys.log).erase c) (hs : s.classes = S.sys.classes)
    (Z : Shrinks (regions (S.sys.classes c) (S.starts c) (objs c)) S.heap h') :
    HeapInv ⟨s, S.starts, h'⟩ objs := by
  constructor
  · intro c' hc'
    change c' ∈ live s.log at hc'
    rw [hl] at hc'
    simpa only [hs] using H.sized c' (Multiset.mem_of_mem_erase hc')
  · intro c' hc'
    change c' ∈ live s.log at hc'
    rw [hl] at hc'
    have hm := Multiset.mem_of_mem_erase hc'
    simp only [hs]
    exact collection_of_sameBytes (H.collections c' hm) (H.sized c' hm).size_ge
      ((H.owned.release hc Z).exists_perm hc') (H.owned.sameBytes_of_release hc' hc Z)
  · change OwnedBy h' (live s.log) _
    rw [hl, hs]
    exact H.owned.release hc Z

end HeapInv

/-! ### Steps and runs -/

/-- A step that does not touch memory. -/
theorem heapPart_of_quiet (hl : (S.sys.threads i).pc ≠ .looping)
    (ha : ∀ j node rest, (S.sys.threads i).pc ≠ .accessing j (node :: rest))
    (hd : ∀ node, (S.sys.threads i).pc ≠ .deallocating node) :
    heapPart A g i S s = .ok (S.starts, S.heap) := by
  unfold heapPart
  split
  · next hpc _ => exact absurd hpc hl
  · next hpc => exact absurd hpc (ha _ _ _)
  · next hpc => exact absurd hpc (hd _)
  · rfl

/-- The collection that a thread is about to traverse is live. -/
theorem live_of_accessing (hInv : Inv g S.sys) (hA : SlotsApart S.sys)
    (hL : Local g (S.sys.threads i)) (hi : i < g.threads) {j : Nat} {node : LSCNode}
    {rest : List LSCNode}
    (hpc : (S.sys.threads i).pc = .accessing j (node :: rest)) :
    node.lsClass ∈ live S.sys.log := by
  have hv := (hL.accessing j _ hpc).subset List.mem_cons_self
  have hr := mem_refs_of_heapClass hi (mem_bag_of_mem_visited hv)
  exact (hInv.counted.of_target (hA.once _) (mem_targets_of_refs hr)).1

/-- What a step does to memory keeps the invariant. It stops only when the allocator declines
a request. -/
theorem HeapInv.step (hg : SmallCollections g) (hw : 0 ≤ g.writeAccessRatio.toInt)
    (hwheel : g.HasWheel) (hInv : Inv g S.sys) (hL : Local g (S.sys.threads i))
    (hi : i < g.threads) {objs : Slot → List UInt64} (H : HeapInv S objs)
    (hs : step g R i S.sys = .ok s) (hA : SlotsApart s) :
    Yields (fun e ↦ e = .outOfMemory ∧ (S.sys.threads i).pc = .looping) (heapPart A g i S s)
      fun p ↦ ∃ objs', HeapInv ⟨s, p.1, p.2⟩ objs' := by
  have hm := step_move hs
  have hInv' := hm.inv hwheel hi hInv
  have hA' := hA.of_move hm
  have hm' := hm
  cases hm with
  | create p₀ p rand c cache k hpc hr hp he hl hz hb =>
    have hsz := sized_newDescriptor hg hp he hb
    have hc : c ∉ live S.sys.log := hInv'.notMem_live (hA.once c) rfl
    simp only [heapPart, hpc, Sys.emit_threads, Sys.put_threads, Function.update_self,
      Sys.emit_classes, Sys.put_classes, Sys.putClass_classes]
    apply (allocateLSClass_spec ⟨rfl, trivial⟩ hb hsz.size_ge hsz.size_lt hsz.num_lt S.heap).bind
    rintro ⟨start, h'⟩ ⟨os, C, G, -⟩
    refine ⟨Function.update objs c os, H.allocate rfl hc ?_ ?_ ?_ ?_⟩
    · intro c' hcc
      exact Function.update_of_ne hcc _ _
    · simpa using hsz
    · simpa using C
    · simpa using G
  | traverse j node rest hpc =>
    have hq := hm'.quiet (by rw [hpc]; exact nofun) (by rw [hpc]; exact nofun)
    have hc := live_of_accessing hInv hA' hL hi hpc
    have hsz := H.sized _ hc
    simp only [heapPart, hpc]
    apply (traverseLSClass_spec (by omega)
      (UInt64.le_iff_toNat_le.mpr (headerSize_le hsz.size_ge _)) hsz.size_lt
      (by have := hsz.num_lt; omega) (Nat.lt_succ_self _) (H.collections _ hc)).bind
    intro h' G
    exact ⟨objs, (H.store hc G).quiet hq⟩
  | deallocate node hpc hk =>
    have hc := (hInv.counted.of_dying (hA'.once _) (mem_dying_of_deallocating hi hpc)).1
    have hsz := H.sized _ hc
    simp only [heapPart, hpc]
    apply (deallocateLSClass_spec (hInv.built _ hc) hk hsz.size_ge hsz.size_lt
      (by have := hsz.num_lt; omega) (Nat.lt_succ_self _) (H.collections _ hc)).bind
    intro h' Z
    exact ⟨objs, H.release hc rfl rfl Z⟩
  | _ =>
    have hq := hm'.quiet (by simp [*]) (by simp [*])
    rw [heapPart_of_quiet (by simp [*]) (by simp [*]) (by simp [*])]
    exact ⟨objs, H.quiet hq⟩

theorem heapStep_eq (hs : step g R i S.sys = .ok s) :
    heapStep A g R i S = (heapPart A g i S s).map fun p ↦ ⟨s, p.1, p.2⟩ := by
  simp only [heapStep, hs, bind, Except.bind]
  generalize heapPart A g i S s = p
  cases p <;> rfl

/-- Before the first step there are no collections. -/
theorem heapInv_runHeap (objs : Slot → List UInt64) : HeapInv (runHeap g R) objs where
  sized _ hc := absurd hc (Multiset.notMem_zero _)
  collections _ hc := absurd hc (Multiset.notMem_zero _)
  owned := ownedBy_empty _

/-- The options of a run whose memory is safe: a delay and a ratio that are not negative,
collections that the builders can count, and class buffers that are not gone round. -/
structure HeapOptions (g : GOptions) : Prop where
  delay : 0 ≤ g.deallocationDelay.toInt
  ratio : 0 ≤ g.writeAccessRatio.toInt
  small : SmallCollections g
  classes : g.classBufferSize.toNat ≤ 2 ^ 26

/-- In every reachable state the live memory is that of the live collections. -/
theorem HeapReachable.inv (hg : HeapOptions g) (hS : HeapReachable A g R S) :
    ∃ objs, HeapInv S objs := by
  induction hS with
  | start h => exact ⟨fun _ ↦ [], heapInv_runHeap _⟩
  | @step S S' i hS hi h ih =>
    obtain ⟨objs, H⟩ := ih
    have hs := step_of_heapStep h
    obtain ⟨s, starts, h'⟩ := S'
    have hy := H.step (A := A) hg.small hg.ratio (GOptions.hasWheel hg.delay)
      (hS.sys.inv hg.delay) (hS.sys.local i) hi hs ((hS.sys.step i hi hs).slotsApart hg.classes)
    rw [heapStep_eq hs] at h
    cases hp : heapPart A g i S s with
    | error e =>
      rw [hp] at h
      cases h
    | ok p =>
      rw [hp] at h hy
      cases h
      exact hy

/-- A run over memory of the threads in a given order. -/
def runHeapSchedule (A : Allocator) (g : GOptions) (R : Generator σ) (is : List Nat)
    (S : HeapSys σ) : Except Stop (HeapSys σ) :=
  is.foldlM (fun S i ↦ heapStep A g R i S) S

/-- The states that a schedule leads to are reachable. -/
theorem HeapReachable.schedule {is : List Nat} (hS : HeapReachable A g R S)
    (hi : ∀ i ∈ is, i < g.threads) (h : runHeapSchedule A g R is S = .ok S') :
    HeapReachable A g R S' := by
  induction is generalizing S with
  | nil =>
    cases h
    exact hS
  | cons i is ih =>
    rw [runHeapSchedule, List.foldlM_cons] at h
    obtain ⟨T, hT, h⟩ := bind_eq_ok h
    exact ih (.step i hS (hi i List.mem_cons_self) hT)
      (fun j hj ↦ hi j (List.mem_cons_of_mem i hj)) h

/-- Whether a schedule runs to its end, in a state with a given property. -/
def endsOnHeap (A : Allocator) (g : GOptions) (R : Generator σ) (is : List Nat)
    (P : HeapSys σ → Prop) [DecidablePred P] : Bool :=
  match runHeapSchedule A g R is (runHeap g R) with
  | .ok S => P S
  | .error _ => false

/-- A schedule that runs to its end reaches a state with the given property. -/
theorem exists_of_endsOnHeap (A : Allocator) (g : GOptions) (R : Generator σ) (is : List Nat)
    (P : HeapSys σ → Prop) [DecidablePred P] (h : endsOnHeap A g R is P = true)
    (hi : ∀ i ∈ is, i < g.threads) (hd : Defined g) : ∃ S, HeapReachable A g R S ∧ P S := by
  unfold endsOnHeap at h
  split at h
  · next S hS => exact ⟨S, .schedule (.start hd) hi hS, of_decide_eq_true h⟩
  · cases h

/-- Two threads that share and write all their collections of two objects. -/
def writingOptions : GOptions :=
  { sharingOptions 2 1 0 100 with
    accessLiveObjects := 1
    writeAccessRatio := 100
    fixedNumberOfObjects := 2 }

theorem heapOptions_writingOptions : HeapOptions writingOptions where
  delay := by decide
  ratio := by decide
  small := by
    constructor
    · constructor <;> decide
    · decide
    · decide
  classes := by decide

/-- No schedule accesses or frees memory that is not live: whenever a thread takes a step, the
step goes through on memory as well, or it is the draw of a collection for which the allocator
declines a request. -/
theorem memorySafe_of_heapReachable (hg : HeapOptions g) (hS : HeapReachable A g R S)
    (hi : i < g.threads) (hs : step g R i S.sys = .ok s) :
    (∃ starts h, heapStep A g R i S = .ok ⟨s, starts, h⟩) ∨
      (heapStep A g R i S = .error .outOfMemory ∧ (S.sys.threads i).pc = .looping) := by
  obtain ⟨objs, H⟩ := hS.inv hg
  have hy := H.step (A := A) hg.small hg.ratio (GOptions.hasWheel hg.delay)
    (hS.sys.inv hg.delay) (hS.sys.local i) hi hs ((hS.sys.step i hi hs).slotsApart hg.classes)
  rw [heapStep_eq hs]
  cases hp : heapPart A g i S s with
  | ok p => exact .inl ⟨p.1, p.2, rfl⟩
  | error e =>
    rw [hp] at hy
    obtain ⟨rfl, hpc⟩ := hy
    exact .inr ⟨rfl, hpc⟩

/-- The second thread drops the last reference to a collection of the first, which both have
traversed. -/
theorem memorySafe_two_threads : ∃ S s starts h,
    HeapReachable bumpAllocator writingOptions (schrage writingOptions) S ∧
      (S.sys.threads 1).pc = .deallocating ⟨⟨0, 1⟩, ⟨0, 0⟩⟩ ∧
      heapStep bumpAllocator writingOptions (schrage writingOptions) 1 S =
        .ok ⟨s, starts, h⟩ := by
  obtain ⟨S, hS, hpc, hok⟩ := exists_of_endsOnHeap bumpAllocator writingOptions
    (schrage writingOptions) ([0, 1, 0, 1] ++ List.replicate 12 0 ++ List.replicate 11 1)
    (fun S ↦ (S.sys.threads 1).pc = .deallocating ⟨⟨0, 1⟩, ⟨0, 0⟩⟩ ∧
      (step writingOptions (schrage writingOptions) 1 S.sys).isOk = true)
    (by decide +kernel) (by decide) (by decide)
  cases hs : step writingOptions (schrage writingOptions) 1 S.sys with
  | error e =>
    rw [hs] at hok
    cases hok
  | ok s =>
    obtain ⟨starts, h, hst⟩ | ⟨-, hl⟩ := memorySafe_of_heapReachable
      heapOptions_writingOptions hS (by decide) hs
    · exact ⟨S, s, starts, h, hS, hpc, hst⟩
    · rw [hpc] at hl
      cases hl

/-- Reduction modulo `2 ^ 64` keeps sums. -/
theorem ofNat_sum (t : Finset Nat) (f : Nat → Nat) :
    UInt64.ofNat (∑ i ∈ t, f i) = ∑ i ∈ t, UInt64.ofNat (f i) :=
  map_sum (⟨⟨UInt64.ofNat, rfl⟩, UInt64.ofNat_add⟩ : Nat →+ UInt64) f t

/-- The live memory of the collections and of the heap. -/
theorem HeapInv.sum_live {objs : Slot → List UInt64} (H : HeapInv S objs) :
    (S.heap.live.map Region.size).sum = liveTotal LSClass.bytes S.sys := by
  rw [H.owned.sum_size, liveTotal]
  congr 1
  apply Multiset.map_congr rfl
  intro c hc
  exact sum_regions (H.collections c hc).length

/-- No memory is lost: in every reachable state the blocks of the heap are as large as all
threads have allocated and not deallocated, and the counters of all threads say so. -/
theorem live_bytes_of_heapReachable (hg : HeapOptions g) (hS : HeapReachable A g R S) :
    (∑ i ∈ Finset.range g.threads, allocatedBy LSClass.bytes i S.sys.log =
        ∑ i ∈ Finset.range g.threads, deallocatedBy LSClass.bytes i S.sys.log +
          (S.heap.live.map Region.size).sum) ∧
      ∑ i ∈ Finset.range g.threads, (S.sys.threads i).mc.stat.bytesAllocated -
        ∑ i ∈ Finset.range g.threads, (S.sys.threads i).mc.stat.bytesDeallocated =
          UInt64.ofNat (S.heap.live.map Region.size).sum := by
  obtain ⟨objs, H⟩ := hS.inv hg
  have hb := hS.sys.balance (f := LSClass.bytes) (fun _ _ ↦ rfl) (GOptions.hasWheel hg.delay)
    (hS.sys.slotsApart hg.classes)
  rw [H.sum_live]
  refine ⟨hb, ?_⟩
  have hr := congrArg UInt64.ofNat hb
  rw [UInt64.ofNat_add, ofNat_sum, ofNat_sum] at hr
  rw [sub_eq_iff_eq_add']
  simpa only [(hS.sys.countersOf _).bytesAllocated, (hS.sys.countersOf _).bytesDeallocated]
    using hr

/-- Two threads hold four objects. -/
theorem live_bytes_two_threads : ∃ S,
    HeapReachable bumpAllocator writingOptions (schrage writingOptions) S ∧
      (S.heap.live.map Region.size).sum = 64 ∧
      ∑ i ∈ Finset.range 2, allocatedBy LSClass.bytes i S.sys.log =
        ∑ i ∈ Finset.range 2, deallocatedBy LSClass.bytes i S.sys.log + 64 := by
  obtain ⟨S, hS, hl⟩ := exists_of_endsOnHeap bumpAllocator writingOptions
    (schrage writingOptions) ([0, 1, 0, 1] ++ List.replicate 12 0 ++ List.replicate 11 1)
    (fun S ↦ (S.heap.live.map Region.size).sum = 64)
    (by decide +kernel) (by decide) (by decide)
  have hb := (live_bytes_of_heapReachable heapOptions_writingOptions hS).1
  rw [hl] at hb
  exact ⟨S, hS, hl, hb⟩

end Acdc
