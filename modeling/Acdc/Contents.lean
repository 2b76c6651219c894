import Acdc.Base.Absorbing
import Acdc.HeapRuns
import Acdc.VisitOrder

/-!
# Contents of objects

What the writes of a traversal leave in memory. `write_object`
(`src/lifetime-size-classes.c:20–29`) makes the payload of an object an arithmetic progression
from its first byte, which it does not write. So writing an object again changes nothing, and
neither do the order and the number of the traversals of shared collections.
-/

namespace Acdc.Objects

open Fallible Heap Memory BinaryTree

/-- A memory in which the bytes of a region count up from the first one. -/
def fill (m : Memory) (r : Region) : Memory := fun x ↦
  if r.Has x then m r.start + UInt8.ofNat (x - r.start) else m x

theorem fill_of_not_has {m : Memory} {r : Region} {x : Nat} (h : ¬ r.Has x) :
    fill m r x = m x := if_neg h

/-- The first byte stays. -/
theorem fill_start (m : Memory) (r : Region) : fill m r r.start = m r.start := by
  unfold fill
  split
  · rw [Nat.sub_self]
    exact UInt8.add_zero _
  · rfl

theorem fill_idem (m : Memory) (r : Region) : fill (fill m r) r = fill m r := by
  ext1 x
  by_cases h : r.Has x
  · simp only [fill, if_pos h]
    rw [← fill, fill_start]
  · rw [fill_of_not_has h]

/-- Regions that do not overlap are filled in any order. -/
theorem fill_comm {r s : Region} (h : r.Apart s) (m : Memory) :
    fill (fill m r) s = fill (fill m s) r := by
  -- a region with an address has its first one, which the other region does not have
  have hstart : ∀ {t u : Region} {x : Nat}, t.Has x → t.Apart u → ¬ u.Has t.start := by
    intro t u x hx ha
    apply ha.not_has
    have := hx.1
    have := hx.2
    exact ⟨le_rfl, by omega⟩
  ext1 x
  by_cases hr : r.Has x
  · have hs := h.not_has hr
    rw [fill_of_not_has hs]
    simp only [fill, if_pos hr, if_neg (hstart hr h)]
  · rw [fill_of_not_has hr]
    by_cases hs : s.Has x
    · simp only [fill, if_pos hs, if_neg (hstart hs h.symm)]
    · simp only [fill, if_neg hs, if_neg hr]

/-- Fills of regions that do not overlap absorb each other. -/
theorem absorbs_fill {rs : List Region} (h : ∀ r ∈ rs, ∀ s ∈ rs, r = s ∨ r.Apart s) :
    Absorbing fill (· ∈ rs) where
  comm r hr s hs m := by
    obtain rfl | ha := h r hr s hs
    · rfl
    · exact fill_comm ha m
  idem r _ m := fill_idem m r

/-! ### Writes -/

section

variable {g : GOptions} {h : Heap} {size offset o : UInt64}

/-- A condition on the result of a computation, if it has one. -/
abbrev Gives {α : Type} (x : Except Stop α) (P : α → Prop) : Prop := Yields (fun _ ↦ True) x P

theorem loadLink_gives (h : Heap) (a : Nat) :
    Gives (loadLink h a) fun (_, h') ↦ h'.bytes = h.bytes := by
  unfold loadLink
  split
  · rfl
  · trivial

theorem int_gives (n : Nat) : Gives (int n) fun _ ↦ True := by
  unfold int
  split <;> trivial

private theorem fill_succ (m : Memory) (p i : Nat) :
    Function.update (fill m ⟨p, i + 1⟩) (p + (i + 1)) (fill m ⟨p, i + 1⟩ (p + i) + 1) =
      fill m ⟨p, i + 2⟩ := by
  have hi : Region.Has ⟨p, i + 1⟩ (p + i) := ⟨Nat.le_add_right p i, Nat.lt_succ_self (p + i)⟩
  ext1 x
  by_cases hx : x = p + (i + 1)
  · subst hx
    have hl : Region.Has ⟨p, i + 2⟩ (p + (i + 1)) :=
      ⟨Nat.le_add_right p _, Nat.lt_succ_self (p + (i + 1))⟩
    rw [Function.update_self]
    simp only [fill, if_pos hi, if_pos hl, Nat.add_sub_cancel_left, UInt8.ofNat_add]
    rw [UInt8.add_assoc]
    rfl
  · rw [Function.update_of_ne hx]
    by_cases hh : Region.Has ⟨p, i + 1⟩ x
    · have hl : Region.Has ⟨p, i + 2⟩ x := ⟨hh.1, Nat.lt_succ_of_lt hh.2⟩
      simp only [fill, if_pos hh, if_pos hl]
    · have hl : ¬ Region.Has ⟨p, i + 2⟩ x := by
        simp only [Region.Has] at hh ⊢
        omega
      simp only [fill, if_neg hh, if_neg hl]

/-- `write_object` fills the payload. -/
theorem writeObject_gives (ho : offset ≤ size) :
    Gives (writeObject h o size offset) fun h' ↦
      h'.bytes = fill h.bytes (payload size offset o) := by
  have hsub : (size - offset).toNat = size.toNat - offset.toNat := UInt64.toNat_sub_of_le _ _ ho
  have hone (m : Memory) (p n : Nat) (hn : n ≤ 1) : fill m ⟨p, n⟩ = m := by
    ext1 x
    unfold fill
    split
    · next hx =>
      have hxp : x = p := by
        have := hx.1
        have := hx.2
        simp only at *
        omega
      rw [hxp, Nat.sub_self]
      exact UInt8.add_zero _
    · rfl
  unfold writeObject
  apply (show Gives (int (size - offset).toNat) (· = size.toNat - offset.toNat) from ?_).bind
  · rintro _ rfl
    -- after `i` turns the first `i + 1` bytes count up
    refine Yields.imp (Yields.foldlM_range
      (P := fun i h' ↦ h'.bytes = fill h.bytes ⟨o.toNat + offset.toNat, i + 1⟩)
      (size.toNat - offset.toNat - 1) (hone _ _ _ le_rfl).symm ?_) ?_
    rotate_left
    · intro h' hb
      rw [hb, payload]
      by_cases hz : size.toNat - offset.toNat = 0
      · rw [hz, hone _ _ _ (Nat.zero_le 1), hone _ _ _ le_rfl]
      · rw [Nat.sub_add_cancel (by omega)]
    · intro i _ h' hb
      unfold loadPayload
      split
      · show Gives (storePayload _ _ _) _
        unfold storePayload
        split
        · show Function.update h'.bytes _ (h'.bytes _ + 1) = _
          rw [hb]
          exact fill_succ _ _ i
        · trivial
      · trivial
  · unfold int
    split
    · exact hsub
    · trivial

/-- The payloads that visits write. -/
def writes (size offset : UInt64) (vs : List Visit) : List Region :=
  (vs.filter Visit.written).map fun v ↦ payload size offset v.object

theorem writes_append (vs vs' : List Visit) :
    writes size offset (vs ++ vs') = writes size offset vs ++ writes size offset vs' := by
  unfold writes
  rw [List.filter_append, List.map_append]

theorem writes_cons (v : Visit) (vs : List Visit) :
    writes size offset (v :: vs) = writes size offset [v] ++ writes size offset vs :=
  writes_append [v] vs

theorem mem_writes {vs : List Visit} {r : Region} (hr : r ∈ writes size offset vs) :
    ∃ v ∈ vs, r = payload size offset v.object := by
  obtain ⟨v, hv, rfl⟩ := List.mem_map.mp hr
  exact ⟨v, List.mem_of_mem_filter hv, rfl⟩

/-- A visit fills the payload of its object, if it writes. -/
theorem visitElement_gives (ho : offset ≤ size) (i : Nat) :
    Gives (visitElement g h i o size offset) fun (v, h') ↦
      h'.bytes = (writes size offset [v]).foldl fill h.bytes := by
  unfold visitElement
  cases writeIthElement g i with
  | error e => trivial
  | ok w =>
    cases w with
    | false => rfl
    | true =>
      -- the iterations of a write leave what one of them leaves
      apply (Yields.foldlM_range (P := fun n (p : Nat × Heap) ↦ p.1 = n ∧
        p.2.bytes = if n = 0 then h.bytes else fill h.bytes (payload size offset o))
          g.writeIterations.toNatClampNeg ⟨rfl, rfl⟩ ?_).bind
      · rintro ⟨n, h'⟩ ⟨hn, hb⟩
        show h'.bytes = _
        rw [hb, ← hn]
        cases n <;> rfl
      · rintro n - ⟨k, h'⟩ ⟨hk, hb⟩
        apply (writeObject_gives ho).bind
        intro h'' hb'
        refine ⟨congrArg (· + 1) hk, ?_⟩
        dsimp only at hb
        show h''.bytes = _
        rw [hb', hb, if_neg (Nat.succ_ne_zero n)]
        split
        · rfl
        · exact fill_idem _ _

/-- The visits of a list fill payloads in turn. -/
theorem visitList_gives (hs : sizeofLObject ≤ size) (fuel counter : Nat) (list : UInt64)
    (h : Heap) : Gives (visitList g size fuel counter list h) fun (vs, h') ↦
      h'.bytes = (writes size sizeofLObject vs).foldl fill h.bytes := by
  induction fuel generalizing counter list h with
  | zero => trivial
  | succ fuel ih =>
    rw [visitList]
    split
    · rfl
    · apply (visitElement_gives hs counter).bind
      rintro ⟨v, h₁⟩ hv
      apply (int_gives (counter + 1)).bind
      intro n _
      apply (loadLink_gives h₁ list.toNat).bind
      rintro ⟨next, h₂⟩ hl
      apply (ih n next h₂).bind
      rintro ⟨vs, h₃⟩ hvs
      show h₃.bytes = _
      rw [writes_cons, List.foldl_append, ← hv, ← hl]
      exact hvs

/-- The visits of a tree fill payloads in turn. -/
theorem visitBtree_gives (hs : sizeofBTObject ≤ size) (fuel : Nat) (t : UInt64) (h : Heap) :
    Gives (visitBtree g size fuel t h) fun (vs, h') ↦
      h'.bytes = (writes size sizeofBTObject vs).foldl fill h.bytes := by
  induction fuel generalizing t h with
  | zero => trivial
  | succ fuel ih =>
    rw [visitBtree]
    split
    · rfl
    · apply (visitElement_gives hs 0).bind
      rintro ⟨v, h₁⟩ hv
      apply (loadLink_gives h₁ (t.toNat + 8)).bind
      rintro ⟨right, h₂⟩ hr
      apply (ih right h₂).bind
      rintro ⟨rs, h₃⟩ hrs
      apply (loadLink_gives h₃ t.toNat).bind
      rintro ⟨left, h₄⟩ hl
      apply (ih left h₄).bind
      rintro ⟨ls, h₅⟩ hls
      show h₅.bytes = _
      rw [writes_cons, List.foldl_append, writes_append, List.foldl_append, ← hv, ← hr, ← hrs,
        ← hl]
      exact hls

/-- The visits of a collection fill payloads in turn. -/
theorem visitLSClass_gives {d : LSClass} (hs : headerSize d.type ≤ d.objectSize) (fuel : Nat)
    (start : UInt64) (h : Heap) : Gives (visitLSClass g fuel d start h) fun (vs, h') ↦
      h'.bytes = (writes d.objectSize (headerSize d.type) vs).foldl fill h.bytes := by
  unfold visitLSClass
  cases ht : d.type with
  | list | optimalList =>
    rw [ht] at hs
    exact visitList_gives hs fuel 0 start h
  | btree | optimalBtree =>
    rw [ht] at hs
    exact visitBtree_gives hs fuel start h
  | falseSharing | optimalFalseSharing => rfl

end

/-! ### Traversals of shared collections -/

section

variable {d : LSClass} {start : UInt64} {objs qs qs' : List UInt64} {h h' : Heap} {m : Memory}
  {type : LifetimeSizeClassType}

/-- The order of the visits is determined by the links. -/
theorem VisitOrder.unique (hq : VisitOrder m start qs type)
    (hq' : VisitOrder m start qs' type) : qs = qs' := by
  cases type with
  | list | optimalList => exact ListAt.unique hq hq'
  | btree | optimalBtree =>
    obtain ⟨t, ht, rfl⟩ := hq
    obtain ⟨t', ht', rfl⟩ := hq'
    rw [ht.unique ht']
  | falseSharing | optimalFalseSharing => exact hq.elim

/-- The objects of a collection have an order. -/
theorem exists_visitOrder (C : Collection d start objs h) :
    ∃ qs, VisitOrder h.bytes start qs d.type ∧ qs.Perm objs := by
  have hl := C.linked
  cases ht : d.type with
  | list | optimalList =>
    rw [ht] at hl
    exact ⟨objs, hl, .refl _⟩
  | btree | optimalBtree =>
    rw [ht] at hl
    obtain ⟨t, hl, hp⟩ := hl
    exact ⟨t.inversePreorder, ⟨t, hl, rfl⟩, t.inversePreorder_perm.trans hp⟩
  | falseSharing | optimalFalseSharing =>
    rw [ht] at hl
    exact hl.elim

/-- The payloads that a traversal writes, given the order of its visits. -/
def traversalWrites (g : GOptions) (d : LSClass) (qs : List UInt64) : List Region :=
  writes d.objectSize (headerSize d.type)
    (qs.zipIdx.map fun (q, i) ↦ ⟨q, writesTo g (accessCounter d.type i)⟩)

/-- A traversal writes payloads of the objects that it visits. -/
theorem mem_traversalWrites {g : GOptions} {r : Region} (hr : r ∈ traversalWrites g d qs) :
    ∃ q ∈ qs, r = payload d.objectSize (headerSize d.type) q := by
  obtain ⟨v, hv, rfl⟩ := mem_writes hr
  obtain ⟨⟨q, i⟩, hq, rfl⟩ := List.mem_map.mp hv
  exact ⟨q, List.fst_mem_of_mem_zipIdx hq, rfl⟩

/-- Payloads of objects that do not overlap do not overlap. -/
theorem payload_apart {size offset size' offset' o o' : UInt64} (ho : offset.toNat ≤ size.toNat)
    (ho' : offset'.toNat ≤ size'.toNat) (h : (object size o).Apart (object size' o')) :
    (payload size offset o).Apart (payload size' offset' o') := by
  simp only [Region.Apart, object, payload] at h ⊢
  omega

end

end Acdc.Objects

namespace Acdc

open Fallible Heap Objects

variable {σ : Type} {A : Allocator} {g : GOptions} {R : Generator σ} {S : HeapSys σ}
  {objs qs : Slot → List UInt64} {c c' : Slot}

/-- Traversals of collections, one after another. -/
def traverseAll (g : GOptions) (S : HeapSys σ) (cs : List Slot) (h : Heap) : Except Stop Heap :=
  cs.foldlM (fun h c ↦ traverseLSClass g ((S.sys.classes c).numObjects.toNat + 1)
    (S.sys.classes c) (S.starts c) h) h

/-- The orders in which the live collections are visited. -/
def Ordered (S : HeapSys σ) (objs qs : Slot → List UInt64) : Prop :=
  ∀ c ∈ live S.sys.log, VisitOrder S.heap.bytes (S.starts c) (qs c) (S.sys.classes c).type ∧
    (qs c).Perm (objs c)

/-- Every live collection has an order. -/
theorem HeapInv.exists_ordered (H : HeapInv S objs) : ∃ qs, Ordered S objs qs := by
  have hq : ∀ c, ∃ q, c ∈ live S.sys.log →
      VisitOrder S.heap.bytes (S.starts c) q (S.sys.classes c).type ∧ q.Perm (objs c) := by
    intro c
    by_cases hc : c ∈ live S.sys.log
    · obtain ⟨q, hq⟩ := exists_visitOrder (H.collections c hc)
      exact ⟨q, fun _ ↦ hq⟩
    · exact ⟨[], fun h ↦ absurd h hc⟩
  choose qs hqs using hq
  exact ⟨qs, hqs⟩

/-- A traversal of one collection leaves the links of all of them, and fills the payloads that it
writes. -/
theorem HeapInv.traverse (hw : 0 ≤ g.writeAccessRatio.toInt) (H : HeapInv S objs)
    (hq : Ordered S objs qs) (hc : c ∈ live S.sys.log) :
    Yields (fun _ ↦ False) (traverseLSClass g ((S.sys.classes c).numObjects.toNat + 1)
      (S.sys.classes c) (S.starts c) S.heap) fun h ↦
        HeapInv ⟨S.sys, S.starts, h⟩ objs ∧ Ordered ⟨S.sys, S.starts, h⟩ objs qs ∧
          h.bytes = (traversalWrites g (S.sys.classes c) (qs c)).foldl fill S.heap.bytes := by
  have hz := H.sized c hc
  have hn := hz.num_lt
  have hhead := headerSize_le hz.size_ge (S.sys.classes c).type
  have hle : headerSize (S.sys.classes c).type ≤ (S.sys.classes c).objectSize := hhead
  rw [← map_visitLSClass]
  apply Yields.map
  apply ((visitLSClass_spec (by omega) hle hz.size_lt (Nat.lt_succ_self _)
    (fun _ he ↦ by omega) (H.collections c hc)).and
      (visitLSClass_gives (g := g) hle _ (S.starts c) S.heap)).imp
  rintro ⟨vs, h⟩ ⟨⟨q, ho, hp, -, hvs, G⟩, hb⟩
  have G' : Grows [] (InPayload (S.sys.classes c).objectSize
      (headerSize (S.sys.classes c).type) (objs c)) S.heap h := by
    apply G.mono
    intro x hx
    apply hx.inPayload
    intro v hv
    rw [hvs] at hv
    obtain ⟨⟨q, i⟩, hm, rfl⟩ := List.mem_map.mp hv
    exact hp.mem_iff.mp (List.fst_mem_of_mem_zipIdx hm)
  have H' := H.store hc G'
  refine ⟨H', ?_, ?_⟩
  · intro c' hc'
    obtain ⟨ho', hp'⟩ := hq c' hc'
    refine ⟨ho'.congr ?_, hp'⟩
    by_cases hcc : c' = c
    · subst hcc
      exact ((H.collections c' hc).grows hz.size_ge G').2.subset fun _ ↦ hp'.mem_iff.mp
    · have hb := H.owned.sameBytes_of_store hc' hc (Ne.symm hcc)
        (fun x hx ↦ mem_regions_of_inPayload (H.collections c hc) hhead hx) G'
      have hh' := headerSize_le (H.sized c' hc').size_ge (S.sys.classes c').type
      intro o ho x hx hx'
      obtain ⟨r, hr, hwr⟩ := (H.collections c' hc').within o (hp'.mem_iff.mp ho)
      exact hb r hr x (hwr.has (object_has.mpr ⟨hx, by omega⟩))
  · rw [traversalWrites, ← ho.unique (hq c hc).1, ← hvs]
    exact hb

/-- Traversals of live collections go through and fill payloads in turn. -/
theorem HeapInv.traverseAll (hw : 0 ≤ g.writeAccessRatio.toInt) (H : HeapInv S objs)
    (hq : Ordered S objs qs) {cs : List Slot} (hcs : ∀ c ∈ cs, c ∈ live S.sys.log) :
    Yields (fun _ ↦ False) (traverseAll g S cs S.heap) fun h ↦ h.bytes =
      (cs.flatMap fun c ↦ traversalWrites g (S.sys.classes c) (qs c)).foldl fill
        S.heap.bytes := by
  obtain ⟨s, starts, h⟩ := S
  induction cs generalizing h with
  | nil => rfl
  | cons c cs ih =>
    rw [Acdc.traverseAll, List.foldlM_cons]
    apply (H.traverse hw hq (hcs c List.mem_cons_self)).bind
    intro h₁ ⟨H₁, hq₁, hb₁⟩
    apply (ih h₁ H₁ hq₁ fun c' hc' ↦ hcs c' (List.mem_cons_of_mem c hc')).imp
    intro h₂ hb₂
    rw [hb₂, hb₁, List.flatMap_cons, List.foldl_append]

/-- What traversals write to live collections is the same or does not overlap. -/
theorem HeapInv.eq_or_apart (H : HeapInv S objs) (hq : Ordered S objs qs)
    (hc : c ∈ live S.sys.log) (hc' : c' ∈ live S.sys.log) {r r' : Region}
    (hr : r ∈ traversalWrites g (S.sys.classes c) (qs c))
    (hr' : r' ∈ traversalWrites g (S.sys.classes c') (qs c')) : r = r' ∨ r.Apart r' := by
  obtain ⟨o, ho, rfl⟩ := mem_traversalWrites hr
  obtain ⟨o', ho', rfl⟩ := mem_traversalWrites hr'
  have hm := (hq c hc).2.mem_iff.mp ho
  have hm' := (hq c' hc').2.mem_iff.mp ho'
  have hh := headerSize_le (H.sized c hc).size_ge (S.sys.classes c).type
  have hh' := headerSize_le (H.sized c' hc').size_ge (S.sys.classes c').type
  by_cases hcc : c = c'
  · subst hcc
    by_cases hoo : o = o'
    · exact .inl (by rw [hoo])
    · exact .inr (payload_apart hh hh ((H.collections c hc).layout.apart_of_ne hm hm' hoo))
  · obtain ⟨s, hs, hws⟩ := (H.collections c hc).within o hm
    obtain ⟨s', hs', hws'⟩ := (H.collections c' hc').within o' hm'
    have hap := H.owned.apart hc hc' hcc hs hs'
    exact .inr (payload_apart hh hh' (hws'.apart (hws.apart hap).symm).symm)

/-- Neither the order nor the number of the traversals of shared collections matters: in every
reachable state two sequences of traversals of the same live collections go through and leave the
same memory. -/
theorem traversals_absorb (hg : HeapOptions g) (hS : HeapReachable A g R S)
    {cs cs' : List Slot} (hcs : ∀ c ∈ cs, c ∈ live S.sys.log)
    (hm : ∀ c, c ∈ cs ↔ c ∈ cs') :
    ∃ h h', traverseAll g S cs S.heap = .ok h ∧ traverseAll g S cs' S.heap = .ok h' ∧
      h.bytes = h'.bytes := by
  obtain ⟨objs, H⟩ := hS.inv hg
  obtain ⟨qs, hq⟩ := H.exists_ordered
  have hcs' : ∀ c ∈ cs', c ∈ live S.sys.log := fun c hc ↦ hcs c ((hm c).mpr hc)
  obtain ⟨h, hh, hb⟩ := (H.traverseAll hg.ratio hq hcs).exists_ok fun _ he ↦ he.elim
  obtain ⟨h', hh', hb'⟩ := (H.traverseAll hg.ratio hq hcs').exists_ok fun _ he ↦ he.elim
  refine ⟨h, h', hh, hh', ?_⟩
  rw [hb, hb']
  have habsorb : Absorbing fill
      (· ∈ cs.flatMap fun c ↦ traversalWrites g (S.sys.classes c) (qs c)) := by
    apply absorbs_fill
    intro r hr r' hr'
    obtain ⟨c, hc, hr⟩ := List.mem_flatMap.mp hr
    obtain ⟨c', hc', hr'⟩ := List.mem_flatMap.mp hr'
    exact H.eq_or_apart hq (hcs c hc) (hcs c' hc') hr hr'
  apply habsorb.foldl_eq fun _ hr ↦ hr
  intro r
  simp only [List.mem_flatMap, hm]

/-- Two shared collections, one of them traversed twice. -/
theorem traversals_absorb_two : ∃ S h h',
    HeapReachable bumpAllocator writingOptions (schrage writingOptions) S ∧
      traverseAll writingOptions S [⟨0, 0⟩, ⟨1, 0⟩, ⟨0, 0⟩] S.heap = .ok h ∧
      traverseAll writingOptions S [⟨1, 0⟩, ⟨0, 0⟩] S.heap = .ok h' ∧ h.bytes = h'.bytes := by
  obtain ⟨S, hS, hl⟩ := exists_of_endsOnHeap bumpAllocator writingOptions
    (schrage writingOptions) ([0, 1, 0, 1] ++ List.replicate 12 0 ++ List.replicate 11 1)
    (fun S ↦ ∀ c ∈ [(⟨0, 0⟩ : Slot), ⟨1, 0⟩, ⟨0, 0⟩], c ∈ live S.sys.log)
    (by decide +kernel) (by decide) (by decide)
  obtain ⟨h, h', hh, hh', hb⟩ := traversals_absorb heapOptions_writingOptions hS
    hl (show ∀ c, c ∈ _ ↔ c ∈ [(⟨1, 0⟩ : Slot), ⟨0, 0⟩] by simp [or_comm])
  exact ⟨S, h, h', hS, hh, hh', hb⟩

end Acdc
