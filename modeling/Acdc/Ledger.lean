import Acdc.Base.RefCount
import Acdc.Threads

/-!
# The ledger of a run

The counted references that a state of the threads amounts to: where every slot is, which
descriptors are in use and how often each is referenced. Every move of a thread is a run
of the protocol of `Acdc.Base.RefCount`, in any interleaving. A class slot is accounted for as
long as its owner has not gone round its class buffer.
-/

namespace Acdc

open Inventory

variable {σ : Type}

/-- The slots that a buffer has carved first. -/
def carved (slot : Nat → Slot) (k : Nat) : Multiset Slot := (Multiset.range k).map slot

theorem carved_succ (slot : Nat → Slot) (k : Nat) :
    carved slot (k + 1) = slot k ::ₘ carved slot k := by
  rw [carved, Multiset.range_succ, Multiset.map_cons, carved]

theorem mem_carved {i k : Nat} {c : Slot} :
    c ∈ carved (Slot.mk i) k ↔ c.owner = i ∧ c.index < k := by
  simp only [carved, Multiset.mem_map, Multiset.mem_range]
  constructor
  · rintro ⟨j, hj, rfl⟩
    exact ⟨rfl, hj⟩
  · rintro ⟨rfl, hj⟩
    exact ⟨c.index, hj, rfl⟩

/-- As long as a buffer has not gone round, its class slots are those below its counter. -/
theorem mem_carved_class {i k : Nat} (hk : k ≤ 2 ^ 26) {c : Slot} :
    c ∈ carved (classSlot i) k ↔ c.owner = i ∧ c.index < k := by
  have hmap : carved (classSlot i) k = carved (Slot.mk i) k := by
    apply Multiset.map_congr rfl
    intro j hj
    have hj := Multiset.mem_range.mp hj
    rw [classSlot_eq, Nat.mod_eq_of_lt (by omega)]
  rw [hmap, mem_carved]

/-- The slots in a cache and those taken from it are the slots carved from the buffer. -/
theorem Taken.inventory {size k₀ k : Nat} {slot : Nat → Slot} {cache₀ cache : List Slot}
    {c : Slot} {used : Multiset Slot} (h : Taken size slot cache₀ k₀ c cache k)
    (hu : ↑cache₀ + used = Acdc.carved slot k₀) : ↑cache + used + {c} = Acdc.carved slot k := by
  cases h with
  | reused =>
    rw [← hu, ← Multiset.cons_coe, Multiset.cons_add, ← Multiset.singleton_add, add_comm]
  | carved =>
    rw [carved_succ, ← hu, ← Multiset.singleton_add, add_comm]

/-- The owner of the class slot has carved it only once: its counter has not gone round. -/
def CarvedOnce (s : Sys σ) (c : Slot) : Prop :=
  (s.threads c.owner).mc.classBufferCounter ≤ 2 ^ 26

/-- No thread has gone round its class buffer. -/
def SlotsApart (s : Sys σ) : Prop := ∀ i, (s.threads i).mc.classBufferCounter ≤ 2 ^ 26

theorem SlotsApart.once {s : Sys σ} (h : SlotsApart s) (c : Slot) : CarvedOnce s c := h c.owner

/-- The node that a thread holds outside all lists. -/
def Pc.heldNodes : Pc → Multiset Slot
  | .deallocating node | .recycling node => {node.slot}
  | _ => 0

/-- The insertions that a sharing thread has still to make. -/
def Pc.pending : Pc → Multiset Slot
  | .sharing c receivers => Multiset.replicate receivers.length c
  | _ => 0

/-- The collection that a thread has built and not yet published. -/
def Pc.created : Pc → Multiset Slot
  | .placing c => {c}
  | _ => 0

/-- The collection whose last reference a thread has dropped. -/
def Pc.dying : Pc → Multiset Slot
  | .deallocating node => {node.lsClass}
  | _ => 0

theorem enterAccess_holds (g : GOptions) :
    (enterAccess g).heldNodes = 0 ∧ (enterAccess g).pending = 0 ∧
      (enterAccess g).created = 0 ∧ (enterAccess g).dying = 0 := by
  obtain h | h := enterAccess_cases g <;>
  · rw [h]
    exact ⟨rfl, rfl, rfl, rfl⟩

/-- The lifetime-size-classes allocated and not yet deallocated. -/
def live : List Event → Multiset Slot
  | [] => 0
  | .allocated _ c _ :: log => c ::ₘ live log
  | .deallocated _ _ c _ :: log => (live log).erase c
  | _ :: log => live log

/-- The lifetime-size-classes shared with nobody. -/
def abandoned : List Event → Multiset Slot
  | [] => 0
  | .selected _ c _ [] :: log => c ::ₘ abandoned log
  | _ :: log => abandoned log

theorem abandoned_selected (i : Nat) (c : Slot) (b : Block) (receivers : List Nat)
    (log : List Event) : abandoned (.selected i c b receivers :: log) =
      if receivers.length = 0 then c ::ₘ abandoned log else abandoned log := by
  cases receivers <;> rfl

/-- The counter of a descriptor. -/
def references (d : LSClass) : Nat := d.referenceCounter.toNat

/-- Nodes in the shared heap-classes of the first `n` threads. -/
def poolNodes (n : Nat) (pools : Nat → HeapClass) : Multiset LSCNode :=
  ∑ r ∈ Finset.range n, bag (pools r)

/-- The ledger of a state. -/
def ledger (g : GOptions) (s : Sys σ) : RefCount.State Slot LSCNode Slot where
  nodes := ∑ i ∈ Finset.range g.threads, carved (Slot.mk i) (s.threads i).mc.nodeBufferCounter
  freeNodes := ∑ i ∈ Finset.range g.threads, ↑(s.threads i).mc.nodeCache
  heldNodes := ∑ i ∈ Finset.range g.threads, (s.threads i).pc.heldNodes
  refs := ∑ i ∈ Finset.range g.threads, bag (s.threads i).mc.heapClass +
    poolNodes g.threads s.pools
  pending := ∑ i ∈ Finset.range g.threads, (s.threads i).pc.pending
  objects := ∑ i ∈ Finset.range g.threads,
    carved (classSlot i) (s.threads i).mc.classBufferCounter
  freeObjects := ∑ i ∈ Finset.range g.threads, ↑(s.threads i).mc.classCache
  live := live s.log
  created := ∑ i ∈ Finset.range g.threads, (s.threads i).pc.created
  dying := ∑ i ∈ Finset.range g.threads, (s.threads i).pc.dying
  abandoned := abandoned s.log
  count := references ∘ s.classes

/-- A step of the protocol on the ledger. -/
abbrev Step (p : Slot → Prop) := RefCount.Step LSCNode.slot LSCNode.lsClass p

/-- The invariant of the threads: the counted references of the ledger, the lengths of the
arrays, receivers that are threads and descriptors that a builder has made. -/
structure Inv (g : GOptions) (s : Sys σ) : Prop where
  counted : RefCount.Inv LSCNode.slot LSCNode.lsClass (CarvedOnce s) (ledger g s)
  wheel : ∀ i, (s.threads i).mc.heapClass.length = g.wheelSize
  pool : ∀ r, (s.pools r).length = g.life
  receivers : ∀ i c receivers, (s.threads i).pc = .sharing c receivers →
    ∀ r ∈ receivers, r < g.threads
  built : ∀ c ∈ live s.log, (s.classes c).Built g
  hasBuilder : ∀ c, (s.classes c).type.hasBuilder = true

/-! ### The share of one thread -/

section Share

-- the ledger of a thread `i` next to the other holders `o`
private def ledgerOf (o : RefCount.State Slot LSCNode Slot) (i : Nat) (th : Thread σ)
    (pools : Multiset LSCNode) (classes : Slot → LSClass) (log : List Event) :
    RefCount.State Slot LSCNode Slot where
  nodes := carved (Slot.mk i) th.mc.nodeBufferCounter + o.nodes
  freeNodes := ↑th.mc.nodeCache + o.freeNodes
  heldNodes := th.pc.heldNodes + o.heldNodes
  refs := bag th.mc.heapClass + o.refs + pools
  pending := th.pc.pending + o.pending
  objects := carved (classSlot i) th.mc.classBufferCounter + o.objects
  freeObjects := ↑th.mc.classCache + o.freeObjects
  live := live log
  created := th.pc.created + o.created
  dying := th.pc.dying + o.dying
  abandoned := abandoned log
  count := references ∘ classes

private theorem owner_ne {n i : Nat} {slot : Nat → Nat → Slot} {k : Nat → Nat} {c : Slot}
    (ho : ∀ j k, (slot j k).owner = j)
    (hc : c ∈ ∑ j ∈ (Finset.range n).erase i, carved (slot j) (k j)) : c.owner ≠ i := by
  obtain ⟨j, hj, hm⟩ := Multiset.mem_sum.mp hc
  obtain ⟨k, -, rfl⟩ := Multiset.mem_map.mp hm
  rw [ho]
  exact Finset.ne_of_mem_erase hj

-- a ledger splits into the share of one thread and the others, which its steps leave
private theorem exists_ledgerOf {g : GOptions} {i : Nat} (hi : i < g.threads) (s : Sys σ) :
    ∃ o : RefCount.State Slot LSCNode Slot,
      (∀ c ∈ o.nodes, c.owner ≠ i) ∧ (∀ c ∈ o.objects, c.owner ≠ i) ∧
      ledger g s =
        ledgerOf o i (s.threads i) (poolNodes g.threads s.pools) s.classes s.log ∧
      ∀ th pools classes arrivals log,
        ledger g ⟨Function.update s.threads i th, pools, classes, arrivals, log⟩ =
          ledgerOf o i th (poolNodes g.threads pools) classes log := by
  let others : Finset Nat := (Finset.range g.threads).erase i
  refine ⟨{
    nodes := ∑ j ∈ others, carved (Slot.mk j) (s.threads j).mc.nodeBufferCounter
    freeNodes := ∑ j ∈ others, ↑(s.threads j).mc.nodeCache
    heldNodes := ∑ j ∈ others, (s.threads j).pc.heldNodes
    refs := ∑ j ∈ others, bag (s.threads j).mc.heapClass
    pending := ∑ j ∈ others, (s.threads j).pc.pending
    objects := ∑ j ∈ others, carved (classSlot j) (s.threads j).mc.classBufferCounter
    freeObjects := ∑ j ∈ others, ↑(s.threads j).mc.classCache
    live := 0
    created := ∑ j ∈ others, (s.threads j).pc.created
    dying := ∑ j ∈ others, (s.threads j).pc.dying
    abandoned := 0
    count := 0 }, fun _ ↦ owner_ne fun _ _ ↦ rfl, fun _ ↦ owner_ne fun _ _ ↦ rfl, ?_, ?_⟩
  · simp only [ledger, ledgerOf, RefCount.State.mk.injEq, and_true, true_and]
    refine ⟨
      sum_split hi (fun j (th : Thread σ) ↦ carved (Slot.mk j) th.mc.nodeBufferCounter) s.threads,
      sum_split hi (fun _ (th : Thread σ) ↦ (↑th.mc.nodeCache : Multiset Slot)) s.threads,
      sum_split hi (fun _ (th : Thread σ) ↦ th.pc.heldNodes) s.threads,
      congrArg (· + _) (sum_split hi (fun _ (th : Thread σ) ↦ bag th.mc.heapClass) s.threads),
      sum_split hi (fun _ (th : Thread σ) ↦ th.pc.pending) s.threads,
      sum_split hi (fun j (th : Thread σ) ↦ carved (classSlot j) th.mc.classBufferCounter)
        s.threads,
      sum_split hi (fun _ (th : Thread σ) ↦ (↑th.mc.classCache : Multiset Slot)) s.threads,
      sum_split hi (fun _ (th : Thread σ) ↦ th.pc.created) s.threads,
      sum_split hi (fun _ (th : Thread σ) ↦ th.pc.dying) s.threads⟩
  · intro th pools classes arrivals log
    simp only [ledger, ledgerOf, RefCount.State.mk.injEq, and_true, true_and]
    refine ⟨
      sum_update hi (fun j (th : Thread σ) ↦ carved (Slot.mk j) th.mc.nodeBufferCounter) _ _,
      sum_update hi (fun _ (th : Thread σ) ↦ (↑th.mc.nodeCache : Multiset Slot)) _ _,
      sum_update hi (fun _ (th : Thread σ) ↦ th.pc.heldNodes) _ _,
      congrArg (· + _) (sum_update hi (fun _ (th : Thread σ) ↦ bag th.mc.heapClass) _ _),
      sum_update hi (fun _ (th : Thread σ) ↦ th.pc.pending) _ _,
      sum_update hi (fun j (th : Thread σ) ↦ carved (classSlot j) th.mc.classBufferCounter) _ _,
      sum_update hi (fun _ (th : Thread σ) ↦ (↑th.mc.classCache : Multiset Slot)) _ _,
      sum_update hi (fun _ (th : Thread σ) ↦ th.pc.created) _ _,
      sum_update hi (fun _ (th : Thread σ) ↦ th.pc.dying) _ _⟩

variable {p : Slot → Prop}

private theorem step_takeNode {i size k₀ k : Nat} {cache₀ cache : List Slot} {node : Slot}
    {S : RefCount.State Slot LSCNode Slot} {N F : Multiset Slot}
    (ht : Taken size (Slot.mk i) cache₀ k₀ node cache k) (hN : ∀ c ∈ N, c.owner ≠ i)
    (hn : S.nodes = carved (Slot.mk i) k₀ + N) (hf : S.freeNodes = ↑cache₀ + F) :
    Step p S { S with
      nodes := carved (Slot.mk i) k + N
      freeNodes := ↑cache + F
      heldNodes := node ::ₘ S.heldNodes } := by
  cases ht with
  | reused =>
    rw [← hn]
    exact .takeFree node _ (by rw [hf, ← Multiset.cons_coe, Multiset.cons_add])
  | carved _ hk =>
    rw [carved_succ, Multiset.cons_add, ← hn, ← hf]
    refine .takeFresh _ fun hm ↦ ?_
    rcases Multiset.mem_add.mp (hn ▸ hm) with h | h
    · exact Nat.lt_irrefl _ (mem_carved.mp h).2
    · exact hN _ h rfl

private theorem steps_link {i size k₀ k : Nat} {cache₀ cache : List Slot} {node c : Slot}
    {S : RefCount.State Slot LSCNode Slot} {N F P : Multiset Slot}
    (ht : Taken size (Slot.mk i) cache₀ k₀ node cache k) (hN : ∀ c ∈ N, c.owner ≠ i)
    (hn : S.nodes = carved (Slot.mk i) k₀ + N) (hf : S.freeNodes = ↑cache₀ + F)
    (hp : S.pending = c ::ₘ P) :
    Relation.ReflTransGen (Step p) S { S with
      nodes := carved (Slot.mk i) k + N
      freeNodes := ↑cache + F
      pending := P
      refs := ⟨node, c⟩ ::ₘ S.refs } :=
  .head (step_takeNode ht hN hn hf)
    (.single (.link (LSCNode.mk node c) S.heldNodes P rfl hp))

private theorem step_create {i size k₀ k : Nat} {cache₀ cache : List Slot} {c : Slot}
    {S : RefCount.State Slot LSCNode Slot} {N F : Multiset Slot}
    (ht : Taken size (classSlot i) cache₀ k₀ c cache k) (hN : ∀ c ∈ N, c.owner ≠ i)
    (hp : ∀ c, p c → c.owner = i → k ≤ 2 ^ 26)
    (hn : S.objects = carved (classSlot i) k₀ + N) (hf : S.freeObjects = ↑cache₀ + F) :
    Step p S (S.create c (carved (classSlot i) k + N) (↑cache + F)) := by
  cases ht with
  | reused =>
    rw [← hn]
    exact .createFree c _ (by rw [hf, ← Multiset.cons_coe, Multiset.cons_add])
  | carved _ hk =>
    rw [carved_succ, Multiset.cons_add, ← hn, ← hf]
    refine .createFresh _ fun hpc hm ↦ ?_
    -- the counter has not gone round, so the slot has not been carved before
    have hle := hp _ hpc rfl
    rcases Multiset.mem_add.mp (hn ▸ hm) with h | h
    · have hlt := ((mem_carved_class (by omega)).mp h).2
      rw [classSlot_eq, Nat.mod_eq_of_lt (by omega)] at hlt
      exact Nat.lt_irrefl _ hlt
    · exact hN _ h rfl

end Share

/-! ### Moves as runs of the protocol -/

section Simulation

variable {g : GOptions} {R : Generator σ} {i : Nat} {s s' : Sys σ}

theorem comp_putClass (classes : Slot → LSClass) (c : Slot) (d : LSClass) :
    references ∘ Function.update classes c d =
      Function.update (references ∘ classes) c (references d) :=
  Function.comp_update ..

/-- A positive counter is decremented without wrapping. -/
theorem decrement_spec {x : UInt64} (hx : 0 < x.toNat) :
    (x - 1).toNat = x.toNat - 1 ∧ (x - 1 = 0 ↔ x.toNat = 1) := by
  have h1 : (x - 1).toNat = x.toNat - 1 :=
    UInt64.toNat_sub_of_le x 1 (UInt64.le_iff_toNat_le.mpr hx)
  refine ⟨h1, ?_⟩
  rw [← UInt64.toNat_inj, h1, UInt64.toNat_zero]
  omega

section Runs

variable {p : Slot → Prop} {o : RefCount.State Slot LSCNode Slot} {size k : Nat} {th : Thread σ}
  {nodes : Multiset LSCNode} {classes : Slot → LSClass} {log : List Event} {c node : Slot}
  {cache : List Slot} {b : Block}

private theorem steps_insert (ho : ∀ c ∈ o.nodes, c.owner ≠ i) {heapClass : HeapClass}
    {rand : σ} {t l : UInt32}
    (ht : Taken size (Slot.mk i) th.mc.nodeCache th.mc.nodeBufferCounter node cache k)
    (hpc : th.pc = .placing c) (hb : bag heapClass = bag th.mc.heapClass + {⟨node, c⟩}) :
    Relation.ReflTransGen (Step p) (ledgerOf o i th nodes classes log)
      (ledgerOf o i { th with
        mc := { th.mc with
          rand := rand
          nodeCache := cache
          nodeBufferCounter := k
          heapClass := heapClass }
        pc := enterAccess g } nodes
        (Function.update classes c { classes c with referenceCounter := 1 })
        (.inserted i c b t l :: log)) := by
  obtain ⟨he1, he2, he3, he4⟩ := enterAccess_holds g
  have h := steps_link (p := p) (c := c)
    (S := (ledgerOf o i th nodes classes log).publish c 1 o.created) (P := o.pending) ht ho rfl rfl
    (by simp [ledgerOf, RefCount.State.publish, hpc, Pc.pending])
  refine .head (.publish c 1 o.created (by simp [ledgerOf, hpc, Pc.created])) ?_
  simp only [ledgerOf, RefCount.State.publish, hpc, live, abandoned, comp_putClass, hb, he1, he2,
    he3, he4] at h ⊢
  simp only [Pc.heldNodes, Pc.pending, Pc.dying, zero_add, one_ne_zero, ite_false, references,
    UInt64.toNat_one, ← Multiset.singleton_add, add_assoc, add_left_comm] at h ⊢
  exact h

private theorem steps_share (ho : ∀ c ∈ o.nodes, c.owner ≠ i) {r : Nat} {pending : List Nat}
    (ht : Taken size (Slot.mk i) th.mc.nodeCache th.mc.nodeBufferCounter node cache k)
    (hpc : th.pc = .sharing c (r :: pending)) :
    Relation.ReflTransGen (Step p) (ledgerOf o i th nodes classes log)
      (ledgerOf o i { th with
        mc := { th.mc with nodeCache := cache, nodeBufferCounter := k }
        pc := .sharing c pending } (nodes + {⟨node, c⟩}) classes (.shared i c b r :: log)) := by
  have h := steps_link (p := p) (c := c) (S := ledgerOf o i th nodes classes log)
    (P := Multiset.replicate pending.length c + o.pending) ht ho rfl rfl
    (by simp [ledgerOf, hpc, Pc.pending, Multiset.replicate_succ])
  simp only [ledgerOf, hpc, live, abandoned, Pc.heldNodes, Pc.pending, Pc.created, Pc.dying,
    ← Multiset.singleton_add, add_assoc, add_left_comm, add_comm] at h ⊢
  exact h

private theorem step_unreference {heapClass : HeapClass} {n : LSCNode}
    (hpc : th.pc = .removing) (hb : bag th.mc.heapClass = n ::ₘ bag heapClass) :
    Step p (ledgerOf o i th nodes classes log)
      (ledgerOf o i { th with
        mc := { th.mc with heapClass := heapClass }
        pc := if (classes n.lsClass).referenceCounter - 1 = 0 then .deallocating n
          else .recycling n } nodes
        (Function.update classes n.lsClass { classes n.lsClass with
          referenceCounter := (classes n.lsClass).referenceCounter - 1 })
        (.unreferenced i n.lsClass b :: log)) := by
  have hr : (ledgerOf o i th nodes classes log).refs =
      n ::ₘ (bag heapClass + o.refs + nodes) := by
    simp only [ledgerOf, hb, Multiset.cons_add]
  have h : Step p (ledgerOf o i th nodes classes log) _ :=
    .drop n _ ((classes n.lsClass).referenceCounter - 1).toNat
      (decide ((classes n.lsClass).referenceCounter - 1 = 0)) hr fun _ hk ↦ by
        rw [decide_eq_true_iff]
        exact decrement_spec hk
  by_cases h1 : (classes n.lsClass).referenceCounter - 1 = 0 <;>
  · simp only [ledgerOf, RefCount.State.drop, hpc, live, abandoned, comp_putClass, Pc.heldNodes,
      Pc.pending, Pc.created, Pc.dying, zero_add, Multiset.singleton_add, h1, ite_true, ite_false,
      decide_true, decide_false, Bool.false_eq_true, references] at h ⊢
    exact h

end Runs

/-- The counter of a class buffer does not go back. -/
theorem Move.classBufferCounter_le (h : Move g R i s s') (j : Nat) :
    (s.threads j).mc.classBufferCounter ≤ (s'.threads j).mc.classBufferCounter := by
  by_cases hj : j = i
  · subst hj
    cases h with
    | create p₀ p rand c cache k hpc hr hp he hl hz hb ht =>
      simpa using ht.counter.1
    | _ => simp
  · rw [h.threads_of_ne hj]

theorem CarvedOnce.of_move {c : Slot} (h : CarvedOnce s' c) (hm : Move g R i s s') :
    CarvedOnce s c :=
  (hm.classBufferCounter_le c.owner).trans h

theorem SlotsApart.of_move (h : SlotsApart s') (hm : Move g R i s s') : SlotsApart s :=
  fun j ↦ (hm.classBufferCounter_le j).trans (h j)

/-- Every move of a thread is a run of the protocol on the ledger. -/
theorem Move.simulates (hw : g.HasWheel) (hi : i < g.threads) (hInv : Inv g s)
    (h : Move g R i s s') {p : Slot → Prop} (hp : ∀ c, p c → CarvedOnce s' c) :
    Relation.ReflTransGen (Step p) (ledger g s) (ledger g s') := by
  obtain ⟨o, hno, hoo, hs, hs'⟩ := exists_ledgerOf hi s
  obtain ⟨he1, he2, he3, he4⟩ := enterAccess_holds g
  rw [hs]
  cases h with
  | arrive hpc | depart _ hpc | traverse _ _ _ hpc | nextLClass _ hpc | endAccess _ hpc | tick hpc
  | resume _ hpc =>
    -- neither slots nor references change hands
    simp only [Sys.put, Sys.emit, hs', ledgerOf, hpc, Pc.heldNodes, Pc.pending, Pc.created,
      Pc.dying, live, abandoned]
    exact .refl
  | create p₀ props rand c cache k hpc hr hprops he hl hz hb ht =>
    have hround (c' : Slot) (hc : p c') (ho : c'.owner = i) : k ≤ 2 ^ 26 := by
      simpa [CarvedOnce, ho] using hp c' hc
    have h := step_create (S := ledgerOf o i (s.threads i) (poolNodes g.threads s.pools)
      s.classes s.log) ht hoo hround rfl rfl
    simp only [Sys.put, Sys.putClass, Sys.emit, hs', ledgerOf, RefCount.State.create, hpc,
      Pc.heldNodes, Pc.pending, Pc.created, Pc.dying, live, abandoned, comp_putClass,
      Multiset.singleton_add, zero_add] at h ⊢
    exact .single h
  | insert c node cache k rand hpc hsh ht hl =>
    simp only [Sys.put, Sys.putClass, Sys.emit, hs']
    exact steps_insert hno ht hpc (bag_modify_append _ _ hl _)
  | select c receivers rand rand' hpc hsh hr =>
    have hn : (UInt64.ofNat receivers.length).toNat = receivers.length := by
      have hl := length_selection_le g R hr
      have ht := g.threads_lt
      exact UInt64.toNat_ofNat_of_lt' (Nat.lt_trans (Nat.lt_of_le_of_lt hl ht) (by decide))
    have h : Step p (ledgerOf o i (s.threads i) (poolNodes g.threads s.pools) s.classes s.log) _ :=
      .publish c receivers.length o.created (by simp [ledgerOf, hpc, Pc.created])
    simp only [Sys.put, Sys.putClass, Sys.emit, hs', ledgerOf, RefCount.State.publish, hpc,
      Pc.heldNodes, Pc.pending, Pc.created, Pc.dying, live, abandoned_selected, comp_putClass,
      Multiset.singleton_add, zero_add, references, hn] at h ⊢
    exact .single h
  | share c node r pending cache k hpc ht hl =>
    have hpool : poolNodes g.threads (Function.update s.pools r ((s.pools r).modify
        (heapClassInsertIndex g (s.threads i).mc.time (s.classes c).lifetime)
        (· ++ [⟨node, c⟩]))) = poolNodes g.threads s.pools + {⟨node, c⟩} :=
      sum_update_add (hInv.receivers i c _ hpc r List.mem_cons_self) (fun _ ↦ bag) s.pools
        (bag_modify_append _ _ hl _)
    simp only [Sys.put, Sys.putPool, Sys.emit, hs', hpool]
    exact steps_share hno ht hpc
  | fetch c hpc =>
    have hb := bag_getSharedLClasses g (s.threads i).mc.time (hInv.pool i) hw (hInv.wheel i)
    have hpool := sum_split hi (fun _ ↦ bag) s.pools
    have hpool' := sum_update hi (fun _ ↦ bag) s.pools
      (getSharedLClasses g (s.threads i).mc.time (s.threads i).mc.heapClass (s.pools i)).2
    rw [getSharedLClasses_snd _ _ (hInv.pool i), bag_replicate_nil, zero_add] at hpool'
    simp only [Sys.put, Sys.putPool, hs', ledgerOf, hpc, hb, poolNodes, he1, he2, he3, he4, hpool,
      getSharedLClasses_snd _ _ (hInv.pool i)]
    simp only [hpool', Pc.heldNodes, Pc.pending, Pc.created, Pc.dying, List.length_nil,
      Multiset.replicate_zero, add_assoc, add_left_comm]
    exact .refl
  | unreference node rest hpc hn =>
    simp only [Sys.put, Sys.putClass, Sys.emit, hs']
    exact .single (step_unreference hpc (bag_set_tail _ _ hn))
  | endRemove pc hpc hn he =>
    obtain rfl | rfl := he <;>
    · simp only [Sys.put, hs', ledgerOf, hpc, Pc.heldNodes, Pc.pending, Pc.created, Pc.dying]
      exact .refl
  | deallocate node hpc hd =>
    have hb := hInv.hasBuilder node.lsClass
    have h : Step p (ledgerOf o i (s.threads i) (poolNodes g.threads s.pools) s.classes s.log) _ :=
      .free node.lsClass o.dying (by simp [ledgerOf, hpc, Pc.dying])
    simp only [Sys.put, Sys.emit, hs', ledgerOf, RefCount.State.free, hpc, Pc.heldNodes,
      Pc.pending, Pc.created, Pc.dying, live, abandoned, zero_add, hb, ite_true,
      ← Multiset.cons_coe, Multiset.cons_add] at h ⊢
    exact .single h
  | recycle node hpc =>
    have h : Step p (ledgerOf o i (s.threads i) (poolNodes g.threads s.pools) s.classes s.log) _ :=
      .putBack node.slot o.heldNodes (by simp [ledgerOf, hpc, Pc.heldNodes])
    simp only [Sys.put, hs', ledgerOf, hpc, Pc.heldNodes, Pc.pending, Pc.created, Pc.dying,
      zero_add, ← Multiset.cons_coe, Multiset.cons_add] at h ⊢
    exact .single h

private theorem Move.wheel (hInv : Inv g s) (h : Move g R i s s') (j : Nat) :
    (s'.threads j).mc.heapClass.length = g.wheelSize := by
  have hw := hInv.wheel j
  by_cases hj : j = i
  · subst hj
    cases h with
    | fetch => simp [length_getSharedLClasses_fst, hInv.pool, hw]
    | _ => simpa using hw
  · rw [h.threads_of_ne hj]
    exact hw

private theorem Move.pool (hInv : Inv g s) (h : Move g R i s s') (r : Nat) :
    (s'.pools r).length = g.life := by
  have hp := hInv.pool r
  cases h with
  | share c node r' pending cache k hpc ht hl =>
    by_cases hr : r = r'
    · subst hr
      simp [hp]
    · simpa [Function.update_of_ne hr] using hp
  | fetch c hpc =>
    by_cases hr : r = i
    · subst hr
      simp [getSharedLClasses_snd _ _ hp]
    · simpa [Function.update_of_ne hr] using hp
  | _ => simpa using hp

private theorem Move.receivers (hInv : Inv g s) (h : Move g R i s s') (j : Nat) (c : Slot)
    (receivers : List Nat) (hj : (s'.threads j).pc = .sharing c receivers) :
    ∀ r ∈ receivers, r < g.threads := by
  by_cases hji : j = i
  · subst hji
    cases h with
    | select c' receivers' rand rand' hpc hs hr =>
      obtain ⟨-, rfl⟩ : c' = c ∧ receivers' = receivers := by simpa using hj
      exact fun r ↦ lt_threads_of_mem_selection g R hr
    | share c' node r pending cache k hpc ht hl =>
      obtain ⟨-, rfl⟩ : c' = c ∧ pending = receivers := by simpa using hj
      exact fun r' hr ↦ hInv.receivers j c' _ hpc r' (List.mem_cons_of_mem r hr)
    | insert | fetch =>
      exact absurd (by simpa using hj) (enterAccess_ne g (.sharing c _) nofun nofun)
    | unreference =>
      simp only [Sys.emit_threads, Sys.put_threads, Function.update_self] at hj
      split at hj <;> cases hj
    | endRemove pc hpc hn he =>
      simp only [Sys.put_threads, Function.update_self] at hj
      subst hj
      simp at he
    | _ => simp at hj
  · rw [h.threads_of_ne hji] at hj
    exact hInv.receivers j c receivers hj

private theorem Move.built (hInv : Inv g s) (h : Move g R i s s') (c : Slot)
    (hc : c ∈ live s'.log) : (s'.classes c).Built g := by
  cases h with
  | create p₀ p rand c' cache k hpc hr hp he hl hz hb ht =>
    by_cases hcc : c = c'
    · subst hcc
      simpa using hb
    · simpa [Function.update_of_ne hcc] using
        hInv.built c (by simpa [live, hcc] using hc)
  | insert c' | select c' =>
    have hb := hInv.built c (by simpa [live] using hc)
    by_cases hcc : c = c'
    · subst hcc
      simpa using hb
    · simpa [Function.update_of_ne hcc] using hb
  | unreference node =>
    have hb := hInv.built c (by simpa [live] using hc)
    by_cases hcc : c = node.lsClass
    · subst hcc
      simpa using hb
    · simpa [Function.update_of_ne hcc] using hb
  | deallocate => exact hInv.built c (Multiset.mem_of_mem_erase hc)
  | _ => exact hInv.built c hc

private theorem Move.hasBuilder (hInv : Inv g s) (h : Move g R i s s') (c : Slot) :
    (s'.classes c).type.hasBuilder = true := by
  have hb := hInv.hasBuilder c
  cases h with
  | create p₀ p rand c' cache k hpc hr hp he hl hz hb' =>
    by_cases hcc : c = c'
    · subst hcc
      simpa using hb'.hasBuilder
    · simpa [Function.update_of_ne hcc] using hb
  | insert c' | select c' =>
    by_cases hcc : c = c'
    · subst hcc
      simpa using hb
    · simpa [Function.update_of_ne hcc] using hb
  | unreference node =>
    by_cases hcc : c = node.lsClass
    · subst hcc
      simpa using hb
    · simpa [Function.update_of_ne hcc] using hb
  | _ => exact hb

/-- Every move keeps the invariant. -/
theorem Move.inv (hw : g.HasWheel) (hi : i < g.threads) (hInv : Inv g s)
    (h : Move g R i s s') : Inv g s' where
  counted := (hInv.counted.mono fun _ hc ↦ hc.of_move h).run (h.simulates hw hi hInv fun _ ↦ id)
  wheel := h.wheel hInv
  pool := h.pool hInv
  receivers := h.receivers hInv
  built := h.built hInv
  hasBuilder := h.hasBuilder hInv

/-- The invariant holds before the first step. -/
theorem inv_runAcdc (g : GOptions) (R : Generator σ) : Inv g (runAcdc g R) where
  counted := by
    have he : ledger g (runAcdc g R) =
        ⟨0, 0, 0, 0, 0, 0, 0, 0, 0, 0, 0, references ∘ (runAcdc g R).classes⟩ := by
      simp [ledger, runAcdc, createMutatorContext, poolNodes, carved, Pc.heldNodes, Pc.pending,
        Pc.created, Pc.dying, live, abandoned]
    rw [he]
    exact .empty _
  wheel i := by simp [runAcdc, createMutatorContext]
  pool r := by simp [runAcdc]
  receivers i c receivers h := by simp [runAcdc] at h
  built c hc := by simp [runAcdc, live] at hc
  hasBuilder _ := rfl

/-- The invariant holds in every reachable state. -/
theorem Reachable.inv_of_hasWheel (hw : g.HasWheel) (hs : Reachable g R s) : Inv g s := by
  induction hs with
  | start => exact inv_runAcdc g R
  | step i _ hi h ih => exact (step_move h).inv hw hi ih

theorem Reachable.inv (hD : 0 ≤ g.deallocationDelay.toInt) (hs : Reachable g R s) : Inv g s :=
  hs.inv_of_hasWheel (GOptions.hasWheel hD)

/-- No thread carves more classes than its buffer has. -/
theorem Reachable.classBufferCounter_le (hs : Reachable g R s) (i : Nat) :
    (s.threads i).mc.classBufferCounter ≤ g.classBufferSize.toNat := by
  induction hs with
  | start => exact Nat.zero_le _
  | step j hs hj h ih =>
    have hm := step_move h
    by_cases hij : i = j
    · subst hij
      cases hm with
      | create p₀ p rand c cache k hpc hr hp he hl hz hb ht =>
        simpa using ht.counter.2.2.2 ih
      | _ => simpa using ih
    · rw [hm.threads_of_ne hij]
      exact ih

/-- A buffer of at most `2 ^ 26` classes is not gone round. -/
theorem Reachable.slotsApart (hC : g.classBufferSize.toNat ≤ 2 ^ 26) (hs : Reachable g R s) :
    SlotsApart s :=
  fun i ↦ (hs.classBufferCounter_le i).trans hC

/-- No thread carves more nodes than its buffer has and their offsets allow. -/
theorem Reachable.nodeBufferCounter_le (hs : Reachable g R s) (i : Nat) :
    (s.threads i).mc.nodeBufferCounter ≤ g.nodeLimit := by
  induction hs with
  | start => exact Nat.zero_le _
  | step j hs hj h ih =>
    have hm := step_move h
    by_cases hij : i = j
    · subst hij
      cases hm with
      | insert c node cache k rand hpc hsh ht hl => simpa using ht.counter.2.2.2 ih
      | share c node r pending cache k hpc ht hl => simpa using ht.counter.2.2.2 ih
      | _ => simpa using ih
    · rw [hm.threads_of_ne hij]
      exact ih

end Simulation

/-- A live collection whose slot was carved once is live once. -/
theorem Inv.notMem_live {g : GOptions} {s : Sys σ} (hInv : Inv g s) {c : Slot}
    (ho : CarvedOnce s c) {others : Multiset Slot} (h : live s.log = c ::ₘ others) :
    c ∉ others := by
  have hc : (live s.log).count c ≤ 1 := hInv.counted.live_count_le ho
  rw [h, Multiset.count_cons_self] at hc
  exact Multiset.count_eq_zero.mp (by omega)

/-! ### What the ledger says of one thread -/

section Thread

variable {g : GOptions} {i : Nat} {s : Sys σ} (hi : i < g.threads)
include hi

/-- A node of a local heap-class is a reference. -/
theorem mem_refs_of_heapClass {node : LSCNode} (h : node ∈ bag (s.threads i).mc.heapClass) :
    node ∈ (ledger g s).refs :=
  Multiset.mem_add.mpr (.inl (Multiset.mem_sum.mpr ⟨i, Finset.mem_range.mpr hi, h⟩))

/-- A pending insertion is a pending reference. -/
theorem mem_pending_of_sharing {c : Slot} {r : Nat} {receivers : List Nat}
    (h : (s.threads i).pc = .sharing c (r :: receivers)) : c ∈ (ledger g s).pending :=
  Multiset.mem_sum.mpr ⟨i, Finset.mem_range.mpr hi, by simp [h, Pc.pending]⟩

/-- A collection about to be placed is created. -/
theorem mem_created_of_placing {c : Slot} (h : (s.threads i).pc = .placing c) :
    c ∈ (ledger g s).created :=
  Multiset.mem_sum.mpr ⟨i, Finset.mem_range.mpr hi, by simp [h, Pc.created]⟩

/-- A collection about to be deallocated is dying. -/
theorem mem_dying_of_deallocating {node : LSCNode}
    (h : (s.threads i).pc = .deallocating node) : node.lsClass ∈ (ledger g s).dying :=
  Multiset.mem_sum.mpr ⟨i, Finset.mem_range.mpr hi, by simp [h, Pc.dying]⟩

omit hi

/-- The class that a reference leads to is a target. -/
theorem mem_targets_of_refs {node : LSCNode} (h : node ∈ (ledger g s).refs) :
    node.lsClass ∈ (ledger g s).targets LSCNode.lsClass :=
  Multiset.mem_add.mpr (.inl (Multiset.mem_map_of_mem _ h))

end Thread

end Acdc
