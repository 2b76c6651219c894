import Acdc.Placement

/-!
# Threads that never share

A thread that never takes the sharing path owns its collections from their placement to
their deallocation: each is in its local heap-class with a counter of one, or being
deallocated by it, or deallocated. Its slots are its own, a node for each placed class, so
that its nodes run out before its class slots repeat. Other threads may share.
-/

namespace Acdc

open Inventory

variable {σ : Type}

/-- The thread has not taken the sharing path. -/
def NeverShares (i : Nat) (s : Sys σ) : Prop :=
  ∀ c b receivers, .selected i c b receivers ∉ s.log

/-- A node of thread `i` leads to the placed collection `c`, or did until its removal. -/
inductive Kept (s : Sys σ) (i : Nat) (c : Slot) : Prop where
  | linked (node : LSCNode) (h : node ∈ bag (s.threads i).mc.heapClass) (hc : node.lsClass = c)
  | dying (node : LSCNode) (h : (s.threads i).pc = .deallocating node) (hc : node.lsClass = c)

/-- The slots of a thread that never shares are its own. Every class but the one being placed
has a node, so that no more than one class is carved without a node. -/
structure OwnSlots (i : Nat) (s : Sys σ) : Prop where
  notSharing : ∀ c receivers, (s.threads i).pc ≠ .sharing c receivers
  nodes : ↑(s.threads i).mc.nodeCache + ((bag (s.threads i).mc.heapClass).map LSCNode.slot +
    (s.threads i).pc.heldNodes) = carved (Slot.mk i) (s.threads i).mc.nodeBufferCounter
  classes : ↑(s.threads i).mc.classCache + ((bag (s.threads i).mc.heapClass).map LSCNode.lsClass +
    ((s.threads i).pc.created + (s.threads i).pc.dying)) =
      carved (classSlot i) (s.threads i).mc.classBufferCounter
  counters : (s.threads i).mc.classBufferCounter ≤ (s.threads i).mc.nodeBufferCounter + 1
  inserted : ∀ c b t l, .inserted i c b t l ∈ s.log → c.owner = i

/-- What a thread that never shares owns. -/
structure Owned (i : Nat) (s : Sys σ) : Prop where
  counter : ∀ node ∈ bag (s.threads i).mc.heapClass,
    (s.classes node.lsClass).referenceCounter = 1
  inserted : ∀ c, Kept s i c → ∃ t l, .inserted i c (s.classes c).start t l ∈ s.log
  stage : ∀ c b t l, .inserted i c b t l ∈ s.log →
    Kept s i c ∧ (s.classes c).start = b ∨ deallocations s.log b ≠ []
  placed : ∀ k < (s.threads i).placed, ∃ c t l, .inserted i c ⟨i, k⟩ t l ∈ s.log

variable {g : GOptions} {R : Generator σ} {i j : Nat} {s s' : Sys σ}

/-- A thread that has not shared after a move has not shared before. -/
theorem NeverShares.of_move (hu : NeverShares i s') (h : Move g R j s s') : NeverShares i s :=
  fun c b receivers hm ↦ hu c b receivers (h.mem_log hm)

namespace OwnSlots

variable (hS : OwnSlots i s)
include hS

/-- The class slots in use are those of the thread. -/
theorem owner {c : Slot} (hc : c ∈ (bag (s.threads i).mc.heapClass).map LSCNode.lsClass +
    ((s.threads i).pc.created + (s.threads i).pc.dying)) : c.owner = i := by
  have hm : c ∈ carved (classSlot i) (s.threads i).mc.classBufferCounter := by
    rw [← hS.classes]
    exact Multiset.mem_add.mpr (.inr hc)
  obtain ⟨k, -, rfl⟩ := Multiset.mem_map.mp hm
  rfl

theorem owner_of_placing {c : Slot} (hpc : (s.threads i).pc = .placing c) : c.owner = i :=
  hS.owner (by simp [hpc, Pc.created])

theorem owner_of_kept {c : Slot} (h : Kept s i c) : c.owner = i := by
  cases h with
  | linked node hn hc =>
    subst hc
    exact hS.owner (Multiset.mem_add.mpr (.inl (Multiset.mem_map_of_mem _ hn)))
  | dying node hn hc =>
    subst hc
    exact hS.owner (by simp [hn, Pc.dying])

/-- A thread that never shares runs out of nodes before it goes round its class buffer. -/
theorem carvedOnce (hn : (s.threads i).mc.nodeBufferCounter ≤ g.nodeLimit) {c : Slot}
    (hc : c.owner = i) : CarvedOnce s c := by
  have hle := hS.counters
  have hlimit : g.nodeLimit ≤ 2 ^ 25 := Nat.min_le_right ..
  rw [CarvedOnce, hc]
  omega

/-- Outside placements and removals there are at most as many classes as nodes. -/
theorem counter_le (hcr : (s.threads i).pc.created = 0) (hdy : (s.threads i).pc.dying = 0)
    (hcache : (s.threads i).mc.classCache = []) :
    (s.threads i).mc.classBufferCounter ≤ (s.threads i).mc.nodeBufferCounter := by
  have hn := congrArg Multiset.card hS.nodes
  have hc := congrArg Multiset.card hS.classes
  simp only [hcr, hdy, hcache, carved, Multiset.card_add, Multiset.card_map, Multiset.card_range,
    Multiset.coe_card, Multiset.card_zero, List.length_nil] at hn hc
  omega

private theorem of_frame {t : UInt32}
    (hmc : (s'.threads i).mc = { (s.threads i).mc with time := t })
    (hshare : ∀ c receivers, (s'.threads i).pc ≠ .sharing c receivers)
    (hheld : (s'.threads i).pc.heldNodes = (s.threads i).pc.heldNodes)
    (hcr : (s'.threads i).pc.created = (s.threads i).pc.created)
    (hdy : (s'.threads i).pc.dying = (s.threads i).pc.dying)
    (hins : ∀ c b t l, .inserted i c b t l ∈ s'.log → .inserted i c b t l ∈ s.log) :
    OwnSlots i s' where
  notSharing := hshare
  nodes := by
    rw [hmc, hheld]
    exact hS.nodes
  classes := by
    rw [hmc, hcr, hdy]
    exact hS.classes
  counters := hmc ▸ hS.counters
  inserted c b t l he := hS.inserted c b t l (hins c b t l he)

end OwnSlots

/-- Every move keeps the slots of a thread that never shares. -/
theorem Move.ownSlots (hInv : Inv g s) (hS : OwnSlots i s) (hO : Owned i s)
    (hu : NeverShares i s') (h : Move g R j s s') : OwnSlots i s' := by
  by_cases hij : i = j
  · subst hij
    have h' := h
    cases h with
    | create p₀ p rand c cache k hpc hr hp he hl hz hb ht =>
      have hclasses := hS.classes
      have hle := hS.counters
      have hk := ht.counter.2.1
      rw [hpc] at hclasses
      have hinv := ht.inventory hclasses
      refine ⟨by simp, by simpa [hpc, Pc.heldNodes] using hS.nodes, ?_, ?_, ?_⟩
      · simpa [Pc.created, Pc.dying, add_assoc] using hinv
      · -- a class is carved from an empty cache only
        generalize hk₀ : (s.threads i).mc.classBufferCounter = k₀ at ht
        generalize hcache₀ : (s.threads i).mc.classCache = cache₀ at ht
        cases ht with
        | reused => simpa [hk₀] using hle
        | carved =>
          have hle := hS.counter_le (by simp [hpc, Pc.created]) (by simp [hpc, Pc.dying]) hcache₀
          simpa [hk₀] using hle
      · intro c' b t l he
        exact hS.inserted c' b t l (by simpa using he)
    | insert c node cache k rand hpc hsh ht hl =>
      obtain ⟨he1, -, he3, he4⟩ := enterAccess_holds g
      have hbag := bag_modify_append _ _ hl [⟨node, c⟩]
      have hnodes := hS.nodes
      have hclasses := hS.classes
      have hle := hS.counters
      have hk := ht.counter.1
      simp only [hpc, Pc.heldNodes, Pc.created, Pc.dying, add_zero] at hnodes hclasses
      have hinv := ht.inventory hnodes
      refine ⟨fun c' receivers ↦ ?_, ?_, ?_, ?_, fun c' b t l he ↦ ?_⟩
      · simpa using enterAccess_ne g (.sharing c' receivers) (by simp) (by simp)
      · simp only [Sys.emit_threads, Sys.put_threads, Function.update_self, hbag, he1,
          Multiset.map_add, Multiset.coe_singleton, Multiset.map_singleton, add_zero, ← hinv,
          add_assoc]
      · simp only [Sys.emit_threads, Sys.put_threads, Function.update_self, hbag, he3, he4,
          Multiset.map_add, Multiset.coe_singleton, Multiset.map_singleton, add_zero, ← hclasses]
      · simp only [Sys.emit_threads, Sys.put_threads, Function.update_self]
        omega
      · rcases List.mem_cons.mp he with he | he
        · cases he
          exact hS.owner_of_placing hpc
        · exact hS.inserted c' b t l he
    | select c receivers => exact absurd (by simp) (hu c (s.classes c).start receivers)
    | share c node r pending cache k hpc => exact absurd hpc (hS.notSharing c _)
    | fetch c hpc => exact absurd hpc (hS.notSharing c _)
    | unreference node rest hpc hn =>
      have hbag := bag_set_tail _ _ hn
      have h1 := hO.counter node (by rw [hbag]; exact Multiset.mem_cons_self _ _)
      have hnodes := hS.nodes
      have hclasses := hS.classes
      refine ⟨by simp [h1], ?_, ?_, by simpa using hS.counters, fun c b t l he ↦ ?_⟩
      · simpa [hbag, hpc, h1, Pc.heldNodes, Multiset.singleton_add, add_comm] using hnodes
      · simpa [hbag, hpc, h1, Pc.created, Pc.dying, Multiset.singleton_add, add_comm] using hclasses
      · exact hS.inserted c b t l (by simpa using he)
    | deallocate node hpc hk =>
      have hb := hInv.hasBuilder node.lsClass
      have hnodes := hS.nodes
      have hclasses := hS.classes
      refine ⟨by simp, ?_, ?_, by simpa using hS.counters, fun c b t l he ↦ ?_⟩
      · simpa [hpc, Pc.heldNodes] using hnodes
      · simpa [hb, hpc, Pc.created, Pc.dying, ← Multiset.cons_coe, ← Multiset.singleton_add,
          add_assoc, add_left_comm, add_comm] using hclasses
      · exact hS.inserted c b t l (by simpa using he)
    | recycle node hpc =>
      have hnodes := hS.nodes
      refine ⟨by simp, ?_, by simpa [hpc, Pc.created, Pc.dying] using hS.classes,
        by simpa using hS.counters, hS.inserted⟩
      simpa [hpc, Pc.heldNodes, ← Multiset.cons_coe, ← Multiset.singleton_add,
        add_assoc, add_left_comm, add_comm] using hnodes
    | tick hpc =>
      exact hS.of_frame (t := (s.threads i).mc.time + 1) (by simp) (by simp)
        (by simp [hpc, Pc.heldNodes]) (by simp [hpc, Pc.created]) (by simp [hpc, Pc.dying])
        (by simp)
    | endRemove pc hpc hn he =>
      obtain rfl | rfl := he <;>
      exact hS.of_frame (t := (s.threads i).mc.time) (by simp) (by simp)
        (by simp [hpc, Pc.heldNodes]) (by simp [hpc, Pc.created]) (by simp [hpc, Pc.dying])
        (by simp)
    | _ =>
      exact hS.of_frame (t := (s.threads i).mc.time) (by simp) (by simp)
        (by simp [*, Pc.heldNodes]) (by simp [*, Pc.created]) (by simp [*, Pc.dying]) (by simp)
  · have ht := h.threads_of_ne hij
    refine hS.of_frame (t := (s.threads i).mc.time) (by rw [ht]) ?_ (by rw [ht]) (by rw [ht])
      (by rw [ht]) ?_
    · rw [ht]
      exact hS.notSharing
    · intro c b t l he
      exact (h.inserted_cases he).resolve_right fun hc ↦ hij hc.1

namespace Owned

/-- A thread alone refers to the collections that it keeps. -/
theorem held (hO : Owned i s) {c : Slot} (h : Kept s i c) : Held s i c := by
  cases h with
  | linked node h hc => exact .counted node h hc (hc ▸ hO.counter node h)
  | dying node h hc => exact .dying node h hc

private theorem of_frame (hO : Owned i s) (hlog : ∀ e ∈ s.log, e ∈ s'.log)
    (hins : ∀ c b t l, .inserted i c b t l ∈ s'.log → .inserted i c b t l ∈ s.log)
    (hdealloc : ∀ b, deallocations s.log b ≠ [] → deallocations s'.log b ≠ [])
    (hkept : ∀ c, Kept s' i c ↔ Kept s i c)
    (hclasses : ∀ c, Kept s i c → s'.classes c = s.classes c)
    (hplaced : (s'.threads i).placed = (s.threads i).placed)
    (hheap : (s'.threads i).mc.heapClass = (s.threads i).mc.heapClass) : Owned i s' where
  counter node hn := by
    rw [hheap] at hn
    rw [hclasses _ (.linked node hn rfl)]
    exact hO.counter node hn
  inserted c hc := by
    have hc := (hkept c).mp hc
    obtain ⟨t, l, he⟩ := hO.inserted c hc
    rw [hclasses _ hc]
    exact ⟨t, l, hlog _ he⟩
  stage c b t l he := by
    obtain ⟨hc, hb⟩ | hd := hO.stage c b t l (hins c b t l he)
    · left
      rw [hclasses _ hc]
      exact ⟨(hkept c).mpr hc, hb⟩
    · exact .inr (hdealloc b hd)
  placed k hk := by
    obtain ⟨c, t, l, he⟩ := hO.placed k (hplaced ▸ hk)
    exact ⟨c, t, l, hlog _ he⟩

private theorem of_other (hD : 0 ≤ g.deallocationDelay.toInt) (hi : i < g.threads)
    (hj : j < g.threads) (hInv : Inv g s) (hS : OwnSlots i s) (hO : Owned i s)
    (ho : ∀ c : Slot, c.owner = i → CarvedOnce s' c) (hij : i ≠ j)
    (h : Move g R j s s') : Owned i s' := by
  have ht := h.threads_of_ne hij
  apply hO.of_frame (fun _ ↦ h.mem_log) _ (fun _ ↦ h.deallocations_ne_nil) _
    (fun c hc ↦ h.classes_of_held hD hi hj hInv hij (hO.held hc) (ho c (hS.owner_of_kept hc)))
    (by rw [ht]) (by rw [ht])
  · intro c b t l he
    exact (h.inserted_cases he).resolve_right fun hc ↦ hij hc.1
  · intro c
    constructor
    · rintro (⟨node, hn, hc⟩ | ⟨node, hn, hc⟩)
      · exact .linked node (ht ▸ hn) hc
      · exact .dying node (ht ▸ hn) hc
    · rintro (⟨node, hn, hc⟩ | ⟨node, hn, hc⟩)
      · exact .linked node (ht ▸ hn) hc
      · exact .dying node (ht ▸ hn) hc

private theorem of_self (hO : Owned i s) (h : Move g R i s s')
    (hp : ∀ c, (s.threads i).pc ≠ .placing c)
    (hheap : (s'.threads i).mc.heapClass = (s.threads i).mc.heapClass)
    (hd : ∀ node, (s.threads i).pc ≠ .deallocating node)
    (hd' : ∀ node, (s'.threads i).pc ≠ .deallocating node)
    (hclasses : ∀ c, Kept s i c → s'.classes c = s.classes c) : Owned i s' := by
  apply hO.of_frame (fun _ ↦ h.mem_log) _ (fun _ ↦ h.deallocations_ne_nil) _ hclasses
    (h.placed hp) hheap
  · intro c b t l he
    exact (h.inserted_cases he).resolve_right fun hc ↦ hp c hc.2.1
  · intro c
    constructor
    · rintro (⟨node, hn, hc⟩ | ⟨node, hn, hc⟩)
      · exact .linked node (hheap ▸ hn) hc
      · exact absurd hn (hd' node)
    · rintro (⟨node, hn, hc⟩ | ⟨node, hn, hc⟩)
      · exact .linked node (hheap ▸ hn) hc
      · exact absurd hn (hd node)

private theorem insert (hO : Owned i s) (hi : i < g.threads) (hInv : Inv g s)
    (hP : Placement g s) (hS : OwnSlots i s) (ho : ∀ c : Slot, c.owner = i → CarvedOnce s c)
    {c : Slot} {th : Thread σ} {node : LSCNode}
    (hpc : (s.threads i).pc = .placing c) (hnode : node.lsClass = c)
    (hth : th.pc = enterAccess g) (hcol : th.mc.collections = (s.threads i).mc.collections)
    (hbag : bag th.mc.heapClass = bag (s.threads i).mc.heapClass + {node}) (t l : UInt32) :
    Owned i (((s.putClass c { s.classes c with referenceCounter := 1 }).put i th).emit
      (.inserted i c (s.classes c).start t l)) := by
  obtain ⟨hc, hplacing⟩ := hP.placing i hi c hpc
  have hst := (hplacing (ho c (hS.owner_of_placing hpc))).1
  have hmem (node' : LSCNode) : node' ∈ bag th.mc.heapClass ↔
      node' ∈ bag (s.threads i).mc.heapClass ∨ node' = node := by
    rw [hbag, Multiset.mem_add, Multiset.mem_singleton]
  have hne (node' : LSCNode) (hn : node' ∈ bag (s.threads i).mc.heapClass) :
      node'.lsClass ≠ c :=
    fun he ↦ (of_node hInv hi (ho _ (hS.owner_of_kept (.linked node' hn rfl))) hn).1
      (he ▸ mem_created_of_placing hi hpc)
  have hkept (c' : Slot) (h : Kept s i c') : c' ≠ c := by
    cases h with
    | linked node' hn hc => exact hc ▸ hne node' hn
    | dying node' hn => simp [hpc] at hn
  have hplaced : th.placed = (s.threads i).placed + 1 := by
    have hne' (c' : Slot) : th.pc ≠ .placing c' :=
      hth ▸ enterAccess_ne g (.placing c') nofun nofun
    rw [Thread.placed_of_ne hne', hcol, hc]
  refine ⟨fun node' hn ↦ ?_, fun c' h ↦ ?_, fun c' b t' l' he ↦ ?_, fun k hk ↦ ?_⟩
  · rcases (hmem node').mp (by simpa using hn) with hn | rfl
    · simpa [Function.update_of_ne (hne node' hn)] using hO.counter node' hn
    · simp [hnode]
  · have h : c' = c ∨ Kept s i c' := by
      rcases h with ⟨node', hn, hc'⟩ | ⟨node', hn, hc'⟩
      · rcases (hmem node').mp (by simpa using hn) with hn | rfl
        · exact .inr (.linked node' hn hc')
        · exact .inl (hc'.symm.trans hnode)
      · exact absurd (by simpa [hth] using hn) (enterAccess_ne g (.deallocating node') nofun nofun)
    rcases h with rfl | h
    · exact ⟨t, l, by simp⟩
    · obtain ⟨t', l', he⟩ := hO.inserted c' h
      exact ⟨t', l', by simp [Function.update_of_ne (hkept c' h), he]⟩
  · rcases List.mem_cons.mp he with he | he
    · cases he
      exact .inl ⟨.linked node (by simp [hmem]) hnode, by simp⟩
    · obtain ⟨h, hb⟩ | hd := hO.stage c' b t' l' he
      · left
        refine ⟨?_, by simpa [Function.update_of_ne (hkept c' h)] using hb⟩
        cases h with
        | linked node' hn hc' => exact .linked node' (by simp [hmem, hn]) hc'
        | dying node' hn => simp [hpc] at hn
      · exact .inr hd
  · have hk : k < th.placed := by simpa using hk
    rw [hplaced] at hk
    by_cases hlt : k < (s.threads i).placed
    · obtain ⟨c', t', l', he⟩ := hO.placed k hlt
      exact ⟨c', t', l', List.mem_cons_of_mem _ he⟩
    · obtain rfl : k = (s.threads i).placed := by omega
      exact ⟨c, t, l, by simp [hst]⟩

private theorem unreference (hO : Owned i s) (hi : i < g.threads) (hInv : Inv g s)
    (hS : OwnSlots i s) (ho : ∀ c : Slot, c.owner = i → CarvedOnce s c) {node : LSCNode}
    {th : Thread σ} (hpc : (s.threads i).pc = .removing)
    (hbag : bag (s.threads i).mc.heapClass = node ::ₘ bag th.mc.heapClass)
    (hth : th.pc = .deallocating node) (hplaced : th.placed = (s.threads i).placed)
    (b' : Block) : Owned i (((s.putClass node.lsClass { s.classes node.lsClass with
      referenceCounter := (s.classes node.lsClass).referenceCounter - 1 }).put i th).emit
        (.unreferenced i node.lsClass b')) := by
  have hm : node ∈ bag (s.threads i).mc.heapClass := by
    rw [hbag]
    exact Multiset.mem_cons_self _ _
  have hmem {node' : LSCNode} (h : node' ∈ bag th.mc.heapClass) :
      node' ∈ bag (s.threads i).mc.heapClass := by
    rw [hbag]
    exact Multiset.mem_cons_of_mem h
  have hne (node' : LSCNode) (hn : node' ∈ bag th.mc.heapClass) :
      node'.lsClass ≠ node.lsClass := by
    intro he
    have hone : (bag (s.threads i).mc.heapClass).countP (·.lsClass = node.lsClass) = 1 := by
      rw [bag, Multiset.coe_countP]
      exact (localNodes_eq_one hInv hi (ho _ (hS.owner_of_kept (.linked node hm rfl))) hm
        (hO.counter node hm)).2
    rw [hbag, Multiset.countP_cons_of_pos (p := fun n : LSCNode ↦ n.lsClass = node.lsClass) _
      rfl] at hone
    have hpos : 0 < (bag th.mc.heapClass).countP (·.lsClass = node.lsClass) :=
      Multiset.countP_pos.mpr ⟨node', hn, he⟩
    omega
  have hstart (c : Slot) : (Function.update s.classes node.lsClass { s.classes node.lsClass with
      referenceCounter := (s.classes node.lsClass).referenceCounter - 1 } c).start =
        (s.classes c).start := by
    by_cases hc : c = node.lsClass
    · subst hc
      simp
    · rw [Function.update_of_ne hc]
  refine ⟨fun node' hn ↦ ?_, fun c h ↦ ?_, fun c b t l he ↦ ?_, fun k hk ↦ ?_⟩
  · have hn : node' ∈ bag th.mc.heapClass := by simpa using hn
    simpa [Function.update_of_ne (hne node' hn)] using hO.counter node' (hmem hn)
  · have h : Kept s i c := by
      rcases h with ⟨node', hn, hc⟩ | ⟨node', hn, hc⟩
      · exact .linked node' (hmem (by simpa using hn)) hc
      · obtain rfl : node = node' := by simpa [hth] using hn
        exact .linked node hm hc
    obtain ⟨t, l, he⟩ := hO.inserted c h
    exact ⟨t, l, by simpa [hstart] using he⟩
  · obtain ⟨h, hb⟩ | hd := hO.stage c b t l (by simpa using he)
    · left
      refine ⟨?_, by simpa [hstart] using hb⟩
      rcases h with ⟨node', hn, hc⟩ | ⟨node', hn, hc⟩
      · rw [hbag] at hn
        rcases Multiset.mem_cons.mp hn with rfl | hn
        · exact .dying node' (by simp [hth]) hc
        · exact .linked node' (by simpa using hn) hc
      · simp [hpc] at hn
    · exact .inr (by simpa [deallocations] using hd)
  · obtain ⟨c, t, l, he⟩ := hO.placed k (hplaced ▸ by simpa using hk)
    exact ⟨c, t, l, by simpa using he⟩

private theorem deallocate (hO : Owned i s) {node : LSCNode} {th : Thread σ} {t : UInt32}
    (hpc : (s.threads i).pc = .deallocating node)
    (hheap : th.mc.heapClass = (s.threads i).mc.heapClass) (hth : th.pc = .recycling node)
    (hplaced : th.placed = (s.threads i).placed) :
    Owned i ((s.put i th).emit (.deallocated i t node.lsClass (s.classes node.lsClass))) := by
  refine ⟨fun node' hn ↦ ?_, fun c h ↦ ?_, fun c b t l he ↦ ?_, fun k hk ↦ ?_⟩
  · exact hO.counter node' (by simpa [hheap] using hn)
  · have h : Kept s i c := by
      rcases h with ⟨node', hn, hc⟩ | ⟨node', hn, hc⟩
      · exact .linked node' (by simpa [hheap] using hn) hc
      · simp [hth] at hn
    obtain ⟨t, l, he⟩ := hO.inserted c h
    exact ⟨t, l, List.mem_cons_of_mem _ he⟩
  · obtain ⟨h, hb⟩ | hd := hO.stage c b t l (by simpa using he)
    · rcases h with ⟨node', hn, hc⟩ | ⟨node', hn, hc⟩
      · exact .inl ⟨.linked node' (by simpa [hheap] using hn) hc, hb⟩
      · obtain rfl : node = node' := by simpa [hpc] using hn
        subst hc
        exact .inr (by simp [deallocations, hb])
    · refine .inr ?_
      simp only [Sys.emit_log, Sys.put_log, deallocations]
      split
      · exact List.cons_ne_nil _ _
      · exact hd
  · obtain ⟨c, t, l, he⟩ := hO.placed k (hplaced ▸ by simpa using hk)
    exact ⟨c, t, l, List.mem_cons_of_mem _ he⟩

end Owned

/-- A collection of a thread that never shares is deallocated by the thread itself. -/
theorem Owned.deallocator (hInv : Inv g s) (hH : History s) (hP : Placement g s)
    (hi : i < g.threads) (hj : j < g.threads) (hS : OwnSlots i s) (hO : Owned i s)
    (ho : ∀ c : Slot, c.owner = i → CarvedOnce s c) {node : LSCNode} {c : Slot} {t l : UInt32}
    (hpc : (s.threads j).pc = .deallocating node)
    (he : .inserted i c (s.classes node.lsClass).start t l ∈ s.log) : j = i := by
  have hdying := mem_dying_of_deallocating hj hpc
  -- the collection was built in one slot, which is the one that was inserted
  obtain ⟨k, d, ha, hd⟩ := hP.built i c _ t l he
  obtain ⟨k', ha'⟩ := hH.recorded _ (hH.of_named hInv (c := node.lsClass)
    (by simp [RefCount.State.named, hdying]))
  obtain rfl := slot_unique (hH.born _) ha' ha rfl hd
  have hco := ho _ (hS.inserted _ _ t l he)
  obtain ⟨hc, -⟩ | hd := hO.stage _ _ t l he
  · by_contra hne
    exact ((hO.held hc).apart hInv hi hj hco (Ne.symm hne)).2.1 node hpc rfl
  · exact absurd (hH.kept _ (hInv.counted.of_dying hco hdying).1 hco) hd

/-- Every move keeps what a thread that never shares owns. -/
theorem Move.owned (hD : 0 ≤ g.deallocationDelay.toInt) (hi : i < g.threads)
    (hj : j < g.threads) (hInv : Inv g s) (hP : Placement g s) (hS : OwnSlots i s)
    (hO : Owned i s) (ho : ∀ c : Slot, c.owner = i → CarvedOnce s' c) (hu : NeverShares i s')
    (h : Move g R j s s') : Owned i s' := by
  have ho' (c : Slot) (hc : c.owner = i) : CarvedOnce s c := (ho c hc).of_move h
  by_cases hij : i = j
  · subst hij
    have h' := h
    cases h with
    | create p₀ p rand c cache k hpc =>
      refine hO.of_self h' (by simp [hpc]) (by simp) (by simp [hpc]) (by simp) ?_
      intro c' hc'
      have hown := hS.owner_of_kept hc'
      have hne : c' ≠ c := by
        rintro rfl
        exact (h'.inv (GOptions.hasWheel hD) hi hInv).notMem_live (ho c' hown) rfl
          ((hO.held hc').live hInv hi (ho' c' hown))
      simp [Function.update_of_ne hne]
    | insert c node cache k rand hpc hsh ht hl =>
      have hbag := bag_modify_append _ _ hl [⟨node, c⟩]
      apply hO.insert hi hInv hP hS ho' hpc
      · exact (rfl : (LSCNode.mk node c).lsClass = c)
      · rfl
      · rfl
      · exact hbag
    | select c receivers => exact absurd (by simp) (hu c (s.classes c).start receivers)
    | share c node r pending cache k hpc => exact absurd hpc (hS.notSharing c _)
    | fetch c hpc => exact absurd hpc (hS.notSharing c _)
    | unreference node rest hpc hn =>
      have hbag := bag_set_tail _ _ hn
      have h1 := hO.counter node (by rw [hbag]; exact Multiset.mem_cons_self _ _)
      apply hO.unreference hi hInv hS ho' hpc hbag
      · simp [h1]
      · simpa using h'.placed (by simp [hpc])
    | deallocate node hpc hk =>
      exact hO.deallocate hpc rfl rfl (by simpa using h'.placed (by simp [hpc]))
    | endRemove pc hpc hn he =>
      obtain rfl | rfl := he <;>
      exact hO.of_self h' (by simp [hpc]) (by simp) (by simp [hpc]) (by simp) (by simp)
    | _ => exact hO.of_self h' (by simp [*]) (by simp) (by simp [*]) (by simp) (by simp)
  · exact Owned.of_other hD hi hj hInv hS hO ho hij h

/-- No thread shares while sharing is off. -/
theorem Reachable.neverShares (h0 : g.sharedObjects = 0) (hs : Reachable g R s) (i : Nat) :
    NeverShares i s := by
  induction hs with
  | start => simp [NeverShares, runAcdc]
  | step j hs hj h ih =>
    cases step_move h with
    | select c receivers rand rand' hpc hsh => simp [getSharingDist, h0] at hsh
    | _ => simpa [NeverShares] using ih

private theorem Reachable.owns (hD : 0 ≤ g.deallocationDelay.toInt) (hi : i < g.threads)
    (hs : Reachable g R s) (hu : NeverShares i s) : OwnSlots i s ∧ Owned i s := by
  induction hs with
  | start =>
    constructor
    · constructor <;> simp [runAcdc, createMutatorContext, carved, Pc.heldNodes, Pc.created,
        Pc.dying]
    constructor
    · simp [runAcdc, createMutatorContext]
    · rintro c (⟨node, hn, -⟩ | ⟨node, hn, -⟩) <;> simp [runAcdc, createMutatorContext] at hn
    · simp [runAcdc]
    · simp [runAcdc, createMutatorContext, Thread.placed]
  | step j hs hj h ih =>
    have hm := step_move h
    obtain ⟨hS, hO⟩ := ih (hu.of_move hm)
    have hS' := hm.ownSlots (hs.inv hD) hS hO hu
    have ho (c : Slot) (hc : c.owner = i) :=
      hS'.carvedOnce ((hs.step j hj h).nodeBufferCounter_le i) hc
    exact ⟨hS', hm.owned hD hi hj (hs.inv hD) (hs.placement hD) hS hO ho hu⟩

section

variable (hD : 0 ≤ g.deallocationDelay.toInt) (hi : i < g.threads) (hs : Reachable g R s)
  (hu : NeverShares i s)
include hD hi hs hu

/-- The slots of a thread that never shares in every reachable state. -/
theorem Reachable.ownSlots : OwnSlots i s := (hs.owns hD hi hu).1

/-- What a thread that never shares owns in every reachable state. -/
theorem Reachable.owned : Owned i s := (hs.owns hD hi hu).2

/-- A thread that never shares does not go round its class buffer. -/
theorem Reachable.carvedOnce {c : Slot} (hc : c.owner = i) : CarvedOnce s c :=
  (hs.ownSlots hD hi hu).carvedOnce (hs.nodeBufferCounter_le i) hc

end

end Acdc
