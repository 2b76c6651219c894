import Acdc.HeapClass
import Mathlib.Tactic.Simps.Basic

/-!
# Interleaved execution of the worker threads

The threads of `src/acdc.c:521–631` over their shared memory: the shared heap-classes, the
class descriptors and the start and time-gap barrier. One step runs a thread from one
access of shared memory to the next; a critical section under a mutex is one step, as is
an atomic decrement. The start of a collection is drawn, built and described in one step,
since its descriptor is private until it is placed.

The log records what the steps did, newest first. No function reads it. Reading of the
clock counter, debug output and the memory samples of thread 0 are left out: they change
nothing that a thread reads.
-/

namespace Acdc

/-- Control points of a thread between two steps. -/
inductive Pc where
  | arriving
  | waiting (round : Nat)
  | looping
  | placing (c : Slot)
  | sharing (c : Slot) (pending : List Nat)
  | accessing (i : Nat) (rest : List LSCNode)
  | accounting
  | removing
  | deallocating (node : LSCNode)
  | recycling (node : LSCNode)
  deriving DecidableEq, Repr

/-- What a step did to a lifetime-size-class. Calls of `access_live_LClasses` are numbered by
the collections that the thread has built. -/
inductive Event where
  | allocated (i : Nat) (c : Slot) (d : LSClass)
  | inserted (i : Nat) (c : Slot) (start : Block) (time liveness : UInt32)
  | selected (i : Nat) (c : Slot) (start : Block) (receivers : List Nat)
  | shared (i : Nat) (c : Slot) (start : Block) (receiver : Nat)
  | traversed (i call : Nat) (c : Slot) (start : Block)
  | accessed (i call : Nat) (time : UInt32)
  | unreferenced (i : Nat) (c : Slot) (start : Block)
  | deallocated (i : Nat) (time : UInt32) (c : Slot) (d : LSClass)
  deriving DecidableEq, Repr

/-- A thread: its context and the locals of `acdc_thread`. -/
structure Thread (σ : Type) where
  mc : MContext σ
  pc : Pc
  timeCounter : UInt64
  runs : Nat
  sz : UInt64
  liveness : UInt32
  numObjects : UInt32

/-- The threads and their shared memory. -/
structure Sys (σ : Type) where
  threads : Nat → Thread σ
  pools : Nat → HeapClass
  classes : Slot → LSClass
  arrivals : Nat
  log : List Event

namespace Sys

variable {σ : Type}

/-- Replacement of one thread. -/
@[simps] def put (s : Sys σ) (i : Nat) (th : Thread σ) : Sys σ :=
  { s with threads := Function.update s.threads i th }

/-- Replacement of one descriptor. -/
@[simps] def putClass (s : Sys σ) (c : Slot) (d : LSClass) : Sys σ :=
  { s with classes := Function.update s.classes c d }

/-- Replacement of one shared heap-class. -/
@[simps] def putPool (s : Sys σ) (r : Nat) (p : HeapClass) : Sys σ :=
  { s with pools := Function.update s.pools r p }

/-- Record of an event. -/
@[simps] def emit (s : Sys σ) (e : Event) : Sys σ := { s with log := e :: s.log }

end Sys

variable {σ : Type} (g : GOptions) (R : Generator σ)

/-- Initial state; `src/acdc.c:636–698`. Threads start at the barrier. -/
def runAcdc : Sys σ where
  threads i := {
    mc := createMutatorContext g R i
    pc := .arriving
    timeCounter := 0
    runs := 0
    sz := 0
    liveness := 0
    numObjects := 0 }
  pools _ := List.replicate g.life []
  classes _ := ⟨0, 0, 0, 0, .list, ⟨0, 0⟩⟩
  arrivals := 0
  log := []

/-- Addition to a histogram entry. -/
def addAt (h : List UInt64) (j : Nat) (x : UInt64) : Except Stop (List UInt64) :=
  if j < h.length then .ok (h.modify j (· + x)) else .error .undefined

/-- The overrides between the draw and the allocation; `src/acdc.c:549–570`. -/
def prepareProps (p : ObjectProps) : ObjectProps :=
  let p := if 0 < g.fixedNumberOfObjects then
      { p with
        numObjects := g.fixedNumberOfObjects.toUInt32
        size := bitZeroShl g.minObjectSc
        liveness := g.minLiveness.toUInt32 }
    else p
  let p := if p.size < sizeofBTObject then { p with size := sizeofBTObject } else p
  if g.useCompactAllocation = 0 then p
  else match p.type with
    | .list => { p with type := .optimalList }
    | .btree => { p with type := .optimalBtree }
    | _ => p

/-- Arrival at `pthread_barrier_wait`. -/
def arrive (i : Nat) (s : Sys σ) : Except Stop (Sys σ) :=
  .ok { s.put i { s.threads i with pc := .waiting (s.arrivals / g.threads) } with
    arrivals := s.arrivals + 1 }

/-- Return from `pthread_barrier_wait`, once all threads of the round have arrived. -/
def depart (i round : Nat) (s : Sys σ) : Except Stop (Sys σ) :=
  if (round + 1) * g.threads ≤ s.arrivals then
    .ok (s.put i { s.threads i with pc := .looping })
  else .error .blocked

/-- Loop test, draw and allocation; `src/acdc.c:540–576`. -/
def create (i : Nat) (s : Sys σ) : Except Stop (Sys σ) :=
  let th := s.threads i
  if (th.runs : Int) < g.benchmarkDuration.toInt then do
    let (p, rand) ← getRandomObjectProps g R th.mc.rand
    let p := prepareProps g p
    let lt ← addAt th.mc.stat.ltHistogram p.liveness.toNat p.numObjects.toUInt64
    let sz ← addAt th.mc.stat.szHistogram (getSizeclass p.size).toNat p.numObjects.toUInt64
    let mc := { th.mc with
      rand := rand
      stat := { th.mc.stat with ltHistogram := lt, szHistogram := sz } }
    let (c, d, mc) ← allocateLSClass g i mc p.type p.size p.numObjects.toUInt64
      (p.liveness + g.deallocationDelay.toUInt32)
    return ((s.putClass c d).put i { th with
      mc := mc
      pc := .placing c
      sz := p.size
      liveness := p.liveness
      numObjects := p.numObjects }).emit (.allocated i c d)
  else .error .returned

/-- Control after placing a collection: `access_live_LClasses`, unless it is off. -/
def enterAccess : Pc := if g.accessLiveObjects = 0 then .accounting else .accessing 0 []

theorem enterAccess_cases : enterAccess g = .accounting ∨ enterAccess g = .accessing 0 [] := by
  unfold enterAccess
  split
  · exact .inl rfl
  · exact .inr rfl

/-- Placing a collection leads nowhere else. -/
theorem enterAccess_ne (pc : Pc) (hn : pc ≠ .accounting) (hn' : pc ≠ .accessing 0 []) :
    enterAccess g ≠ pc := by
  obtain h | h := enterAccess_cases g
  · exact h ▸ hn.symm
  · exact h ▸ hn'.symm

/-- The sharing decision. A shared collection gets its counter from the selection of its
receivers, `src/acdc.c:360–363`; the others go to the local heap-class,
`src/acdc.c:590–591`. -/
def place (i : Nat) (c : Slot) (s : Sys σ) : Except Stop (Sys σ) := do
  let th := s.threads i
  let d := s.classes c
  let (share, rand) ← getSharingDist g R th.mc.rand
  if share then
    let (receivers, rand) ← getRandomThreadSelection g R rand
    return ((s.putClass c { d with referenceCounter := UInt64.ofNat receivers.length }).put i
      { th with mc := { th.mc with rand := rand }, pc := .sharing c receivers }).emit
        (.selected i c d.start receivers)
  else
    let mc := { th.mc with rand := rand }
    let (heapClass, mc) ← heapClassInsert g i mc mc.heapClass c d.lifetime
    return ((s.putClass c { d with referenceCounter := 1 }).put i
      { th with mc := { mc with heapClass := heapClass }, pc := enterAccess g }).emit
        (.inserted i c d.start th.mc.time th.liveness)

/-- One insertion into the pool of a receiver, under its lock; `src/acdc.c:366–375`. -/
def share (i : Nat) (c : Slot) (r : Nat) (pending : List Nat) (s : Sys σ) :
    Except Stop (Sys σ) := do
  let th := s.threads i
  let (pool, mc) ← heapClassInsert g i th.mc (s.pools r) c (s.classes c).lifetime
  return ((s.putPool r pool).put i { th with mc := mc, pc := .sharing c pending }).emit
    (.shared i c (s.classes c).start r)

/-- Fetch of the own pool, under its lock; `src/acdc.c:386–411`. -/
def fetch (i : Nat) (s : Sys σ) : Except Stop (Sys σ) :=
  let th := s.threads i
  let (heapClass, pool) := getSharedLClasses g th.mc.time th.mc.heapClass (s.pools i)
  .ok ((s.putPool i pool).put i
    { th with mc := { th.mc with heapClass := heapClass }, pc := enterAccess g })

/-- Traversal of one class; `src/acdc.c:337–340`. -/
def traverse (i j : Nat) (node : LSCNode) (rest : List LSCNode) (s : Sys σ) :
    Except Stop (Sys σ) :=
  let th := s.threads i
  .ok ((s.put i { th with pc := .accessing j rest }).emit
    (.traversed i th.mc.collections node.lsClass (s.classes node.lsClass).start))

/-- Next lifetime-class of the access loop, or its end; `src/acdc.c:331–342`. -/
def nextLClass (i j : Nat) (s : Sys σ) : Except Stop (Sys σ) :=
  let th := s.threads i
  if j < g.life then
    .ok (s.put i { th with
      pc := .accessing (j + 1) (heapClassGetLClass g th.mc.time th.mc.heapClass j) })
  else
    .ok ((s.put i { th with pc := .accounting }).emit
      (.accessed i th.mc.collections th.mc.time))

/-- Advance of the clock after a quantum; `src/acdc.c:599–610`. -/
def account (i : Nat) (s : Sys σ) : Except Stop (Sys σ) :=
  let th := s.threads i
  let timeCounter := th.timeCounter + th.sz * th.numObjects.toUInt64
  if g.timeQuantum ≤ timeCounter then
    .ok (s.put i { th with
      mc := { th.mc with time := th.mc.time + 1 }
      pc := .removing
      timeCounter := 0
      runs := th.runs + 1 })
  else .ok (s.put i { th with pc := .looping, timeCounter := timeCounter })

/-- One iteration of the removal loop: the atomic decrement for the first remaining node,
`src/acdc.c:159–160,312`, or the end of the loop and the test for the time gap. -/
def remove (i : Nat) (s : Sys σ) : Except Stop (Sys σ) :=
  let th := s.threads i
  let deleteIndex := heapClassRemoveIndex g th.mc.time
  match th.mc.heapClass[deleteIndex]? with
  | none => .error .undefined
  | some [] =>
    if g.maxTimeGap = 0 then .error .undefined
    else
      .ok (s.put i { th with
        pc := if th.mc.time % g.maxTimeGap.toUInt32 = 0 then .arriving else .looping })
  | some (node :: rest) =>
    let d := s.classes node.lsClass
    let referenceCounter := d.referenceCounter - 1
    .ok (((s.putClass node.lsClass { d with referenceCounter := referenceCounter }).put i
      { th with
        mc := { th.mc with heapClass := th.mc.heapClass.set deleteIndex rest }
        pc := if referenceCounter = 0 then .deallocating node else .recycling node }).emit
          (.unreferenced i node.lsClass d.start))

/-- Deallocation by the thread that drops the last reference; `src/acdc.c:313`. -/
def deallocate (i : Nat) (node : LSCNode) (s : Sys σ) : Except Stop (Sys σ) := do
  let th := s.threads i
  let d := s.classes node.lsClass
  let mc ← deallocateLSClass g th.mc node.lsClass d
  return (s.put i { th with mc := mc, pc := .recycling node }).emit
    (.deallocated i th.mc.time node.lsClass d)

/-- Return of the node to the cache of the removing thread; `src/acdc.c:163`. -/
def recycle (i : Nat) (node : LSCNode) (s : Sys σ) : Except Stop (Sys σ) :=
  let th := s.threads i
  .ok (s.put i { th with mc := recycleLSCNode th.mc node.slot, pc := .removing })

/-- One step of thread `i`. -/
def step (i : Nat) (s : Sys σ) : Except Stop (Sys σ) :=
  match (s.threads i).pc with
  | .arriving => arrive g i s
  | .waiting round => depart g i round s
  | .looping => create g R i s
  | .placing c => place g R i c s
  | .sharing c (r :: pending) => share g i c r pending s
  | .sharing _ [] => fetch g i s
  | .accessing j (node :: rest) => traverse i j node rest s
  | .accessing j [] => nextLClass g i j s
  | .accounting => account g i s
  | .removing => remove g i s
  | .deallocating node => deallocate g i node s
  | .recycling node => recycle i node s

/-- The `int` sums of the start-up are defined. -/
structure Defined : Prop where
  wheel : g.maxLiveness.toInt + g.deallocationDelay.toInt < 2 ^ 31
  lifetimes : g.maxLiveness.toInt + 1 < 2 ^ 31
  sizes : g.maxObjectSc.toInt + 1 < 2 ^ 31

instance : Decidable (Defined g) :=
  decidable_of_iff
    (g.maxLiveness.toInt + g.deallocationDelay.toInt < 2 ^ 31 ∧
      g.maxLiveness.toInt + 1 < 2 ^ 31 ∧ g.maxObjectSc.toInt + 1 < 2 ^ 31)
    ⟨fun ⟨h0, h1, h2⟩ ↦ ⟨h0, h1, h2⟩, fun ⟨h0, h1, h2⟩ ↦ ⟨h0, h1, h2⟩⟩

/-- States of the runs whose start-up is defined. -/
inductive Reachable : Sys σ → Prop where
  | start (h : Defined g) : Reachable (runAcdc g R)
  | step {s s' : Sys σ} (i : Nat) (hs : Reachable s) (hi : i < g.threads)
      (h : step g R i s = .ok s') : Reachable s'

/-- A run of the threads in a given order. -/
def runSchedule : List Nat → Sys σ → Except Stop (Sys σ)
  | [], s => .ok s
  | i :: is, s =>
    if i < g.threads then
      match step g R i s with
      | .ok s' => runSchedule is s'
      | .error e => .error e
    else .error .undefined

/-- A run of a schedule takes its first step and runs the rest. -/
theorem runSchedule_cons {i : Nat} {is : List Nat} {s s' : Sys σ}
    (h : runSchedule g R (i :: is) s = .ok s') :
    i < g.threads ∧ ∃ t, step g R i s = .ok t ∧ runSchedule g R is t = .ok s' := by
  simp only [runSchedule] at h
  split at h
  · next hi =>
    split at h
    · next t ht => exact ⟨hi, t, ht, h⟩
    · cases h
  · cases h

/-- What every step of a schedule keeps, its run keeps. -/
theorem runSchedule_invariant {P : Sys σ → Prop} {is : List Nat} {s s' : Sys σ} (hs : P s)
    (hstep : ∀ i ∈ is, ∀ s s', i < g.threads → P s → step g R i s = .ok s' → P s')
    (h : runSchedule g R is s = .ok s') : P s' := by
  induction is generalizing s with
  | nil =>
    cases h
    exact hs
  | cons i is ih =>
    obtain ⟨hi, t, ht, h⟩ := runSchedule_cons g R h
    apply ih (hstep i List.mem_cons_self s t hi hs ht) _ h
    intro j hj
    exact hstep j (List.mem_cons_of_mem i hj)

/-- The states that a schedule leads to are reachable. -/
theorem Reachable.schedule {is : List Nat} {s s' : Sys σ} (hs : Reachable g R s)
    (h : runSchedule g R is s = .ok s') : Reachable g R s' :=
  runSchedule_invariant g R hs (fun i _ _ _ hi hs ht ↦ .step i hs hi ht) h

/-- Options of small runs: each quantum builds one object of the greatest liveness. -/
def smallOptions (numThreads maxLiveness deallocationDelay : Int32) : GOptions :=
  { GOptions.setDefaultParams with
    numThreads := numThreads
    timeQuantum := 1
    minLiveness := maxLiveness
    maxLiveness := maxLiveness
    fixedNumberOfObjects := 1
    deallocationDelay := deallocationDelay
    maxTimeGap := 100
    maxObjectSc := 5
    nodeBufferSize := 8
    classBufferSize := 8 }

/-- Options of small runs in which every collection is shared. -/
def sharingOptions (numThreads maxLiveness deallocationDelay receivingThreadsRatio : Int32) :
    GOptions :=
  { smallOptions numThreads maxLiveness deallocationDelay with
    sharedObjects := 1
    sharedObjectsRatio := 101
    receivingThreadsRatio := receivingThreadsRatio }

/-- Whether a schedule runs to its end, in a state with a given property. -/
def endsIn (is : List Nat) (P : Sys σ → Prop) [DecidablePred P] : Bool :=
  match runSchedule g R is (runAcdc g R) with
  | .ok s => P s
  | .error _ => false

/-- A schedule that runs to its end has a last state, with the given property. -/
theorem exists_run_of_endsIn (is : List Nat) (P : Sys σ → Prop) [DecidablePred P]
    (h : endsIn g R is P = true) : ∃ s, runSchedule g R is (runAcdc g R) = .ok s ∧ P s := by
  unfold endsIn at h
  split at h
  · next s hs => exact ⟨s, hs, of_decide_eq_true h⟩
  · cases h

/-- A schedule that runs to its end reaches a state with the given property. -/
theorem exists_of_endsIn (is : List Nat) (P : Sys σ → Prop) [DecidablePred P]
    (h : endsIn g R is P = true)
    (hd : Defined g) : ∃ s, Reachable g R s ∧ P s := by
  obtain ⟨s, hs, hP⟩ := exists_run_of_endsIn g R is P h
  exact ⟨s, Reachable.schedule g R (.start hd) hs, hP⟩

end Acdc
