import Acdc.Base.DList
import Acdc.Ledger

/-!
# Lifetime-classes in memory

The doubly-linked lists behind the lifetime-classes and caches of `Acdc.Machine`: the list
operations of `src/lifetime-class.c`, which are those of `Acdc.Base.DList`, and the code that
works on nodes by hand. A step of a thread in memory follows its control point; numbers are
those of the thread, and every node is found by following pointers.

A class slot that is free is linked as a node in place. Its links lie where the descriptor
has its counter and its size. Here the links of free slots are apart from the descriptors: as
long as no class slot is carved twice, no step writes the descriptor of a free slot.
-/

namespace Acdc

open DList

variable {σ : Type}

/-- The lists of nodes. The iterator of `heap_class_remove` is the first of the nodes that have
not been given back, without a last one. -/
inductive NodeList where
  | heapClass (i k : Nat)
  | shared (r k : Nat)
  | nodeCache (i : Nat)
  | iterator (i : Nat)
  deriving DecidableEq, Repr

/-- The nodes with their lists, and the free class slots with the class caches. -/
structure Links where
  nodes : Store NodeList Slot
  classes : Store Nat Slot

section Lists

variable {κ : Type} [DecidableEq κ] (m : Store κ Slot) (list : κ)

/-- `src/lifetime-class.c:11–19`. -/
abbrev lclassInsertAfter (after c : Slot) : Store κ Slot := m.insertAfter list after c

/-- `src/lifetime-class.c:21–29`. -/
abbrev lclassInsertBefore (before c : Slot) : Store κ Slot := m.insertBefore list before c

/-- `src/lifetime-class.c:31–40`. -/
abbrev lclassInsertBeginning (c : Slot) : Store κ Slot := m.insertBeginning list c

/-- `src/lifetime-class.c:42–47`. -/
abbrev lclassInsertEnd (c : Slot) : Store κ Slot := m.insertEnd list c

/-- `src/lifetime-class.c:49–58`. -/
abbrev lclassRemove (c : Slot) : Store κ Slot := m.remove list c

/-- The first slot of a cache, or else a fresh one, without links. -/
def takeSlot (fresh : Except Stop Slot) : Except Stop (Slot × Store κ Slot) :=
  match (m.ends list).first with
  | some node =>
    let m := lclassRemove m list node
    let m := m.setNext node none
    .ok (node, m.setPrev node none)
  | none => do
    let node ← fresh
    let m := m.setNext node none
    return (node, m.setPrev node none)

end Lists

namespace Links

/-- `src/acdc.c:66–90`, after the test of the buffer. -/
def getLSCNode (L : Links) (i counter : Nat) : Except Stop (Slot × Links) := do
  let (node, m) ← takeSlot L.nodes (.nodeCache i) (nodeSlot i counter)
  return (node, { L with nodes := m })

/-- `src/acdc.c:95–98`. -/
def recycleLSCNode (L : Links) (i : Nat) (node : Slot) : Links :=
  { L with nodes := lclassInsertBeginning L.nodes (.nodeCache i) node }

/-- `src/lifetime-size-classes.c:31–60`, after the test of the buffer. -/
def getLSClass (L : Links) (i counter : Nat) : Except Stop (Slot × Links) := do
  let (c, m) ← takeSlot L.classes i (.ok (classSlot i counter))
  return (c, { L with classes := m })

/-- `src/lifetime-size-classes.c:62–68`. -/
def recycleLSClass (L : Links) (i : Nat) (c : Slot) : Links :=
  { L with classes := lclassInsertBeginning L.classes i c }

/-- `src/acdc.c:106–122`. -/
def heapClassInsert (L : Links) (i counter : Nat) (target : NodeList) : Except Stop Links := do
  let (node, L) ← L.getLSCNode i counter
  return { L with nodes := lclassInsertEnd L.nodes target node }

/-- The loop body of `src/acdc.c:396–409`. -/
def fetchLClass (g : GOptions) (i : Nat) (time : UInt32) (m : Store NodeList Slot) (k : Nat) :
    Except Stop (Store NodeList Slot) :=
  let remote := NodeList.shared i k
  let here := NodeList.heapClass i (heapClassGetIndex g time (UInt32.ofNat k))
  match (m.ends remote).first with
  | none => .ok m
  | some _ => do
    let m ← match (m.ends here).first with
      | none =>
        let m := m.setFirst here (m.ends remote).first
        .ok (m.setLast here (m.ends remote).last)
      | some _ => match (m.ends here).last with
        | none => .error .undefined
        | some last =>
          let m := m.setNext last (m.ends remote).first
          .ok (m.setLast here (m.ends remote).last)
    let m := m.setFirst remote none
    return m.setLast remote none

/-- `src/acdc.c:386–411`. -/
def getSharedLClasses (L : Links) (g : GOptions) (i : Nat) (time : UInt32) :
    Except Stop Links := do
  let m ← (List.range g.life).foldlM (fetchLClass g i time) L.nodes
  return { L with nodes := m }

/-- The start of the removal loop; `src/acdc.c:152–158`. -/
def startRemove (L : Links) (i deleteIndex : Nat) : Links :=
  { L with nodes :=
      L.nodes.setFirst (.iterator i) (L.nodes.ends (.heapClass i deleteIndex)).first }

/-- The end of an iteration of the removal loop; `src/acdc.c:161–163`. -/
def giveBack (L : Links) (i : Nat) : Except Stop Links :=
  match (L.nodes.ends (.iterator i)).first with
  | none => .error .undefined
  | some tmp =>
    let L := { L with nodes := L.nodes.setFirst (.iterator i) (L.nodes.links tmp).next }
    .ok (L.recycleLSCNode i tmp)

/-- The end of the removal loop; `src/acdc.c:159,165–167`. -/
def endRemove (L : Links) (i deleteIndex : Nat) : Links :=
  match (L.nodes.ends (.iterator i)).first with
  | some _ => L
  | none =>
    let m := L.nodes.setFirst (.heapClass i deleteIndex) none
    { L with nodes := m.setLast (.heapClass i deleteIndex) none }

/-- The removal loop, and the nodes in the order in which it unreferences their classes. That
writes no list of nodes. `src/acdc.c:159–164`. -/
def removeLoop (i : Nat) : Nat → Links → Except Stop (List Slot × Links)
  | 0, _ => .error .outOfFuel
  | fuel + 1, L =>
    match (L.nodes.ends (.iterator i)).first with
    | none => .ok ([], L)
    | some node => do
      let L ← L.giveBack i
      let (nodes, L) ← removeLoop i fuel L
      return (node :: nodes, L)

/-- `src/acdc.c:143–168`. -/
def heapClassRemove (L : Links) (g : GOptions) (i : Nat) (time : UInt32) (fuel : Nat) :
    Except Stop (List Slot × Links) := do
  let deleteIndex := heapClassRemoveIndex g time
  let (nodes, L) ← removeLoop i fuel (L.startRemove i deleteIndex)
  return (nodes, L.endRemove i deleteIndex)

end Links

/-- What a step of thread `i` from `s` does to the lists. -/
def linkStep (g : GOptions) (R : Generator σ) (i : Nat) (s : Sys σ) (L : Links) :
    Except Stop Links :=
  let th := s.threads i
  match th.pc with
  | .looping => do
    let (_, L) ← L.getLSClass i th.mc.classBufferCounter
    return L
  | .placing c =>
    match getSharingDist g R th.mc.rand with
    | .ok (false, _) => L.heapClassInsert i th.mc.nodeBufferCounter
        (.heapClass i (heapClassInsertIndex g th.mc.time (s.classes c).lifetime))
    | _ => .ok L
  | .sharing c (r :: _) => L.heapClassInsert i th.mc.nodeBufferCounter
      (.shared r (heapClassInsertIndex g th.mc.time (s.classes c).lifetime))
  | .sharing _ [] => L.getSharedLClasses g i th.mc.time
  | .accounting =>
    if g.timeQuantum ≤ th.timeCounter + th.sz * th.numObjects.toUInt64 then
      .ok (L.startRemove i (heapClassRemoveIndex g (th.mc.time + 1)))
    else .ok L
  | .removing => .ok (L.endRemove i (heapClassRemoveIndex g th.mc.time))
  | .deallocating node =>
    if (s.classes node.lsClass).type.hasBuilder then .ok (L.recycleLSClass i node.lsClass)
    else .ok L
  | .recycling _ => L.giveBack i
  | _ => .ok L

/-- Runs with their lists, from arbitrary memory and empty lists. `P` holds of every step and
the state before it. -/
inductive Linked (g : GOptions) (R : Generator σ) (P : Nat → Sys σ → Prop) :
    Sys σ → Links → Prop where
  | start (L : Links) (h : Defined g) (hn : ∀ k, L.nodes.ends k = ⟨none, none⟩)
      (hc : ∀ i, L.classes.ends i = ⟨none, none⟩) : Linked g R P (runAcdc g R) L
  | step {s s' : Sys σ} {L L' : Links} (i : Nat) (hs : Linked g R P s L) (hi : i < g.threads)
      (h : step g R i s = .ok s') (hL : linkStep g R i s L = .ok L') (hP : P i s) :
      Linked g R P s' L'

/-- Between operations of its owner every list is well formed. -/
structure WellLinked (s : Sys σ) (L : Links) : Prop where
  heapClass : ∀ i k, (s.threads i).pc.inRemoval = false →
    ∃ l, L.nodes.WellFormed (.heapClass i k) l
  shared : ∀ r k, ∃ l, L.nodes.WellFormed (.shared r k) l
  nodeCache : ∀ i, ∃ l, L.nodes.WellFormed (.nodeCache i) l
  classCache : ∀ i, ∃ l, L.classes.WellFormed i l

end Acdc
