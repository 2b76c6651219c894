import Acdc.Machine

/-!
# The moves of a thread

What one step of a thread can do, guards included. Every result about runs rests on this
case distinction and not on the definition of `step`.
-/

namespace Acdc

variable {σ : Type} (g : GOptions) (R : Generator σ)

/-- The descriptor of a new collection; `src/acdc.c:572–576`. -/
def newDescriptor (i serial : Nat) (p : ObjectProps) : LSClass where
  referenceCounter := 0
  objectSize := p.size
  lifetime := p.liveness + g.deallocationDelay.toUInt32
  numObjects := p.numObjects.toUInt64
  type := p.type
  start := ⟨i, serial⟩

/-- The counters and histograms after a new collection has been counted. -/
def MStat.count (m : MStat) (p : ObjectProps) : MStat :=
  { m with
    bytesAllocated := m.bytesAllocated + p.size * p.numObjects.toUInt64
    objectsAllocated := m.objectsAllocated + p.numObjects.toUInt64
    ltHistogram := m.ltHistogram.modify p.liveness.toNat (· + p.numObjects.toUInt64)
    szHistogram :=
      m.szHistogram.modify (getSizeclass p.size).toNat (· + p.numObjects.toUInt64) }

/-- The counters after a collection has been deallocated. -/
def MStat.uncount (m : MStat) (d : LSClass) : MStat :=
  { m with
    bytesDeallocated := m.bytesDeallocated + d.objectSize * d.numObjects
    objectsDeallocated := m.objectsDeallocated + d.numObjects }

/-- The moves of thread `i` in state `s`. -/
inductive Move (i : Nat) (s : Sys σ) : Sys σ → Prop where
  | arrive (hpc : (s.threads i).pc = .arriving) :
      Move i s { s.put i { s.threads i with pc := .waiting (s.arrivals / g.threads) } with
        arrivals := s.arrivals + 1 }
  | depart (round : Nat) (hpc : (s.threads i).pc = .waiting round)
      (h : (round + 1) * g.threads ≤ s.arrivals) :
      Move i s (s.put i { s.threads i with pc := .looping })
  | create (p₀ p : ObjectProps) (rand : σ) (c : Slot) (cache : List Slot) (k : Nat)
      (hpc : (s.threads i).pc = .looping)
      (hr : ((s.threads i).runs : Int) < g.benchmarkDuration.toInt)
      (hp : getRandomObjectProps g R (s.threads i).mc.rand = .ok (p₀, rand))
      (he : p = prepareProps g p₀)
      (hl : p.liveness.toNat < (s.threads i).mc.stat.ltHistogram.length)
      (hz : (getSizeclass p.size).toNat < (s.threads i).mc.stat.szHistogram.length)
      (hb : (newDescriptor g i (s.threads i).mc.collections p).Built g)
      (ht : Taken g.classBufferSize.toNat (classSlot i) (s.threads i).mc.classCache
        (s.threads i).mc.classBufferCounter c cache k) :
      Move i s (((s.putClass c (newDescriptor g i (s.threads i).mc.collections p)).put i
        { s.threads i with
          mc := { (s.threads i).mc with
            rand := rand
            stat := (s.threads i).mc.stat.count p
            classCache := cache
            classBufferCounter := k
            collections := (s.threads i).mc.collections + 1 }
          pc := .placing c
          sz := p.size
          liveness := p.liveness
          numObjects := p.numObjects }).emit
            (.allocated i c (newDescriptor g i (s.threads i).mc.collections p)))
  | insert (c node : Slot) (cache : List Slot) (k : Nat) (rand : σ)
      (hpc : (s.threads i).pc = .placing c)
      (hs : getSharingDist g R (s.threads i).mc.rand = .ok (false, rand))
      (ht : Taken g.nodeLimit (Slot.mk i) (s.threads i).mc.nodeCache
        (s.threads i).mc.nodeBufferCounter node cache k)
      (hl : heapClassInsertIndex g (s.threads i).mc.time (s.classes c).lifetime <
        (s.threads i).mc.heapClass.length) :
      Move i s (((s.putClass c { s.classes c with referenceCounter := 1 }).put i
        { s.threads i with
          mc := { (s.threads i).mc with
            rand := rand
            nodeCache := cache
            nodeBufferCounter := k
            heapClass := (s.threads i).mc.heapClass.modify
              (heapClassInsertIndex g (s.threads i).mc.time (s.classes c).lifetime)
              (· ++ [⟨node, c⟩]) }
          pc := enterAccess g }).emit
            (.inserted i c (s.classes c).start (s.threads i).mc.time (s.threads i).liveness))
  | select (c : Slot) (receivers : List Nat) (rand rand' : σ)
      (hpc : (s.threads i).pc = .placing c)
      (hs : getSharingDist g R (s.threads i).mc.rand = .ok (true, rand))
      (hr : getRandomThreadSelection g R rand = .ok (receivers, rand')) :
      Move i s (((s.putClass c { s.classes c with
        referenceCounter := UInt64.ofNat receivers.length }).put i
          { s.threads i with
            mc := { (s.threads i).mc with rand := rand' }
            pc := .sharing c receivers }).emit
              (.selected i c (s.classes c).start receivers))
  | share (c node : Slot) (r : Nat) (pending : List Nat) (cache : List Slot) (k : Nat)
      (hpc : (s.threads i).pc = .sharing c (r :: pending))
      (ht : Taken g.nodeLimit (Slot.mk i) (s.threads i).mc.nodeCache
        (s.threads i).mc.nodeBufferCounter node cache k)
      (hl : heapClassInsertIndex g (s.threads i).mc.time (s.classes c).lifetime <
        (s.pools r).length) :
      Move i s (((s.putPool r ((s.pools r).modify
        (heapClassInsertIndex g (s.threads i).mc.time (s.classes c).lifetime)
        (· ++ [⟨node, c⟩]))).put i
          { s.threads i with
            mc := { (s.threads i).mc with nodeCache := cache, nodeBufferCounter := k }
            pc := .sharing c pending }).emit (.shared i c (s.classes c).start r))
  | fetch (c : Slot) (hpc : (s.threads i).pc = .sharing c []) :
      Move i s ((s.putPool i (getSharedLClasses g (s.threads i).mc.time
        (s.threads i).mc.heapClass (s.pools i)).2).put i
          { s.threads i with
            mc := { (s.threads i).mc with
              heapClass := (getSharedLClasses g (s.threads i).mc.time
                (s.threads i).mc.heapClass (s.pools i)).1 }
            pc := enterAccess g })
  | traverse (j : Nat) (node : LSCNode) (rest : List LSCNode)
      (hpc : (s.threads i).pc = .accessing j (node :: rest)) :
      Move i s ((s.put i { s.threads i with pc := .accessing j rest }).emit
        (.traversed i (s.threads i).mc.collections node.lsClass
          (s.classes node.lsClass).start))
  | nextLClass (j : Nat) (hpc : (s.threads i).pc = .accessing j []) (hj : j < g.life) :
      Move i s (s.put i { s.threads i with
        pc := .accessing (j + 1) (heapClassGetLClass g (s.threads i).mc.time
          (s.threads i).mc.heapClass j) })
  | endAccess (j : Nat) (hpc : (s.threads i).pc = .accessing j []) (hj : g.life ≤ j) :
      Move i s ((s.put i { s.threads i with pc := .accounting }).emit
        (.accessed i (s.threads i).mc.collections (s.threads i).mc.time))
  | tick (hpc : (s.threads i).pc = .accounting) :
      Move i s (s.put i { s.threads i with
        mc := { (s.threads i).mc with time := (s.threads i).mc.time + 1 }
        pc := .removing
        timeCounter := 0
        runs := (s.threads i).runs + 1 })
  | resume (timeCounter : UInt64) (hpc : (s.threads i).pc = .accounting) :
      Move i s (s.put i { s.threads i with pc := .looping, timeCounter := timeCounter })
  | unreference (node : LSCNode) (rest : List LSCNode) (hpc : (s.threads i).pc = .removing)
      (hn : (s.threads i).mc.heapClass[heapClassRemoveIndex g (s.threads i).mc.time]? =
        some (node :: rest)) :
      Move i s (((s.putClass node.lsClass { s.classes node.lsClass with
        referenceCounter := (s.classes node.lsClass).referenceCounter - 1 }).put i
          { s.threads i with
            mc := { (s.threads i).mc with
              heapClass := (s.threads i).mc.heapClass.set
                (heapClassRemoveIndex g (s.threads i).mc.time) rest }
            pc := if (s.classes node.lsClass).referenceCounter - 1 = 0 then
              .deallocating node else .recycling node }).emit
                (.unreferenced i node.lsClass (s.classes node.lsClass).start))
  | endRemove (pc : Pc) (hpc : (s.threads i).pc = .removing)
      (hn : (s.threads i).mc.heapClass[heapClassRemoveIndex g (s.threads i).mc.time]? = some [])
      (he : pc = .arriving ∨ pc = .looping) :
      Move i s (s.put i { s.threads i with pc := pc })
  | deallocate (node : LSCNode) (hpc : (s.threads i).pc = .deallocating node)
      (hk : (s.classes node.lsClass).referenceCounter = 0) :
      Move i s ((s.put i { s.threads i with
        mc := { (s.threads i).mc with
          stat := (s.threads i).mc.stat.uncount (s.classes node.lsClass)
          classCache := if (s.classes node.lsClass).type.hasBuilder then
            node.lsClass :: (s.threads i).mc.classCache else (s.threads i).mc.classCache }
        pc := .recycling node }).emit
          (.deallocated i (s.threads i).mc.time node.lsClass (s.classes node.lsClass)))
  | recycle (node : LSCNode) (hpc : (s.threads i).pc = .recycling node) :
      Move i s (s.put i { s.threads i with
        mc := { (s.threads i).mc with nodeCache := node.slot :: (s.threads i).mc.nodeCache }
        pc := .removing })

variable {g R} {i : Nat} {s s' : Sys σ}

private theorem addAt_cases {h h' : List UInt64} {j : Nat} {x : UInt64}
    (ha : addAt h j x = .ok h') : j < h.length ∧ h' = h.modify j (· + x) := by
  unfold addAt at ha
  split at ha
  · next hj => exact ⟨hj, (Except.ok.inj ha).symm⟩
  · cases ha

private theorem move_create (hpc : (s.threads i).pc = .looping)
    (h : create g R i s = .ok s') : Move g R i s s' := by
  unfold create at h
  dsimp only at h
  split at h
  · next hr =>
    obtain ⟨⟨p₀, rand⟩, hp, h⟩ := bind_eq_ok h
    obtain ⟨lt, hlt, h⟩ := bind_eq_ok h
    obtain ⟨sz, hsz, h⟩ := bind_eq_ok h
    obtain ⟨⟨c, d, mc⟩, ha, h⟩ := bind_eq_ok h
    obtain ⟨hl, rfl⟩ := addAt_cases hlt
    obtain ⟨hz, rfl⟩ := addAt_cases hsz
    obtain ⟨rfl, hb, cache, k, ht, rfl⟩ := allocateLSClass_cases g ha
    cases h
    exact .create p₀ _ rand c cache k hpc hr hp rfl hl hz hb ht
  · cases h

private theorem move_place {c : Slot} (hpc : (s.threads i).pc = .placing c)
    (h : place g R i c s = .ok s') : Move g R i s s' := by
  unfold place at h
  dsimp only at h
  obtain ⟨⟨b, rand⟩, hs, h⟩ := bind_eq_ok h
  cases b with
  | true =>
    obtain ⟨⟨receivers, rand'⟩, hr, h⟩ := bind_eq_ok h
    cases h
    exact .select c receivers rand rand' hpc hs hr
  | false =>
    obtain ⟨⟨heapClass, mc⟩, hi, h⟩ := bind_eq_ok h
    obtain ⟨node, hg, hl, rfl⟩ := heapClassInsert_cases g hi
    obtain ⟨cache, k, ht, rfl⟩ := getLSCNode_cases g hg
    cases h
    exact .insert c node cache k rand hpc hs ht hl

private theorem move_share {c : Slot} {r : Nat} {pending : List Nat}
    (hpc : (s.threads i).pc = .sharing c (r :: pending))
    (h : share g i c r pending s = .ok s') : Move g R i s s' := by
  unfold share at h
  obtain ⟨⟨pool, mc⟩, hi, h⟩ := bind_eq_ok h
  obtain ⟨node, hg, hl, rfl⟩ := heapClassInsert_cases g hi
  obtain ⟨cache, k, ht, rfl⟩ := getLSCNode_cases g hg
  cases h
  exact .share c node r pending cache k hpc ht hl

private theorem move_remove (hpc : (s.threads i).pc = .removing)
    (h : remove g i s = .ok s') : Move g R i s s' := by
  unfold remove at h
  dsimp only at h
  split at h
  · cases h
  · next hn =>
    split at h
    · cases h
    · cases h
      exact .endRemove _ hpc hn (by split <;> simp)
  · next node rest hn =>
    cases h
    exact .unreference node rest hpc hn

/-- Every step is one of the moves. -/
theorem step_move (h : step g R i s = .ok s') : Move g R i s s' := by
  unfold step at h
  split at h
  · next hpc =>
    cases h
    exact .arrive hpc
  · next round hpc =>
    unfold depart at h
    split at h
    · next hb =>
      cases h
      exact .depart round hpc hb
    · cases h
  · next hpc => exact move_create hpc h
  · next c hpc => exact move_place hpc h
  · next c r pending hpc => exact move_share hpc h
  · next c hpc =>
    cases h
    exact .fetch c hpc
  · next j node rest hpc =>
    cases h
    exact .traverse j node rest hpc
  · next j hpc =>
    unfold nextLClass at h
    dsimp only at h
    split at h
    · next hj =>
      cases h
      exact .nextLClass j hpc hj
    · next hj =>
      cases h
      exact .endAccess j hpc (by omega)
  · next hpc =>
    unfold account at h
    dsimp only at h
    split at h
    · cases h
      exact .tick hpc
    · cases h
      exact .resume _ hpc
  · next hpc => exact move_remove hpc h
  · next node hpc =>
    obtain ⟨mc, hd, h⟩ := bind_eq_ok h
    obtain ⟨hk, rfl⟩ := deallocateLSClass_cases g hd
    cases h
    exact .deallocate node hpc hk
  · next node hpc =>
    cases h
    exact .recycle node hpc

end Acdc
