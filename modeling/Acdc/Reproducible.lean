import Acdc.Histograms

/-!
# Reproducible workloads

What a thread draws, allocates, shares and counts, and when its clock advances, depends on its
own random numbers only. The workload of a thread is the sequential program that is left
when everything that other threads can change is taken out of `acdc_thread`. Every step
of a run is a step of the workload of its thread, or none.
-/

namespace Acdc

variable {σ : Type}

/-- What an iteration of the main loop shows: the collection it allocates, the receivers if it
shares the collection, and whether it advances the clock. -/
inductive Observation where
  | created (type : LifetimeSizeClassType) (objectSize numObjects : UInt64) (liveness : UInt32)
  | placed (receivers : Option (List Nat))
  | accounted (ticked : Bool)
  deriving DecidableEq, Repr

/-- What a step from `s` to `s'` shows of thread `i`. -/
def observe (i : Nat) (s s' : Sys σ) : List Observation :=
  match (s.threads i).pc, (s'.threads i).pc with
  | .looping, .placing c =>
    [.created (s'.classes c).type (s'.classes c).objectSize (s'.classes c).numObjects
      (s'.threads i).liveness]
  | .placing _, .sharing _ receivers => [.placed (some receivers)]
  | .placing _, _ => [.placed none]
  | .accounting, .removing => [.accounted true]
  | .accounting, _ => [.accounted false]
  | _, _ => []

/-- A run that leads to `s` and shows `o i` of each thread `i`. -/
inductive Observed (g : GOptions) (R : Generator σ) :
    Sys σ → (Nat → List Observation) → Prop where
  | start (h : Defined g) : Observed g R (runAcdc g R) fun _ ↦ []
  | step {s s' : Sys σ} {o : Nat → List Observation} (i : Nat) (hs : Observed g R s o)
      (hi : i < g.threads) (h : step g R i s = .ok s') :
      Observed g R s' (Function.update o i (o i ++ observe i s s'))

/-- Parts of an iteration of the main loop. -/
inductive Phase where
  | looping
  | placing
  | accounting
  deriving DecidableEq, Repr

/-- The part of an iteration that a control point belongs to. -/
def Pc.phase : Pc → Phase
  | .placing _ => .placing
  | .sharing _ _ | .accessing _ _ | .accounting => .accounting
  | _ => .looping

/-- What a thread computes on its own. The counters of deallocations are left out. -/
structure Workload (σ : Type) where
  rand : σ
  stat : MStat
  time : UInt32
  phase : Phase
  timeCounter : UInt64
  runs : Nat
  sz : UInt64
  liveness : UInt32
  numObjects : UInt32
  shown : List Observation

/-- The part of the statistics that allocations change. -/
def MStat.allocations (m : MStat) : MStat :=
  { m with bytesDeallocated := 0, objectsDeallocated := 0 }

/-- The workload of a thread that has shown `o`. -/
def Thread.workload (th : Thread σ) (o : List Observation) : Workload σ where
  rand := th.mc.rand
  stat := th.mc.stat.allocations
  time := th.mc.time
  phase := th.pc.phase
  timeCounter := th.timeCounter
  runs := th.runs
  sz := th.sz
  liveness := th.liveness
  numObjects := th.numObjects
  shown := o

variable (g : GOptions) (R : Generator σ)

/-- The next step of a workload, none at its end or where the draws fail. -/
def Workload.next (w : Workload σ) : Option (Workload σ) :=
  match w.phase with
  | .looping =>
    if (w.runs : Int) < g.benchmarkDuration.toInt then
      match getRandomObjectProps g R w.rand with
      | .ok (p, rand) =>
        let p := prepareProps g p
        some { w with
          rand := rand
          stat := w.stat.count p
          phase := .placing
          sz := p.size
          liveness := p.liveness
          numObjects := p.numObjects
          shown := w.shown ++ [.created p.type p.size p.numObjects.toUInt64 p.liveness] }
      | .error _ => none
    else none
  | .placing =>
    match getSharingDist g R w.rand with
    | .ok (true, rand) =>
      match getRandomThreadSelection g R rand with
      | .ok (receivers, rand) =>
        some { w with
          rand := rand, phase := .accounting, shown := w.shown ++ [.placed (some receivers)] }
      | .error _ => none
    | .ok (false, rand) =>
      some { w with rand := rand, phase := .accounting, shown := w.shown ++ [.placed none] }
    | .error _ => none
  | .accounting =>
    let timeCounter := w.timeCounter + w.sz * w.numObjects.toUInt64
    if g.timeQuantum ≤ timeCounter then
      some { w with
        time := w.time + 1
        phase := .looping
        timeCounter := 0
        runs := w.runs + 1
        shown := w.shown ++ [.accounted true] }
    else
      some { w with
        phase := .looping, timeCounter := timeCounter, shown := w.shown ++ [.accounted false] }

variable {g R} {i : Nat} {s s' : Sys σ}

theorem account_of_step (h : step g R i s = .ok s') (hpc : (s.threads i).pc = .accounting) :
    account g i s = .ok s' := by
  simpa only [step, hpc] using h

/-- A step of a thread is a step of its workload, or none. -/
theorem workload_of_step (h : step g R i s = .ok s') (o : List Observation) :
    (s'.threads i).workload (o ++ observe i s s') = (s.threads i).workload o ∨
      ((s.threads i).workload o).next g R =
        some ((s'.threads i).workload (o ++ observe i s s')) := by
  have hm := step_move h
  cases hm with
  | create p₀ p rand c cache k hpc hr hp he =>
    right
    simp [Thread.workload, Workload.next, observe, hpc, Pc.phase, hr, hp, he, newDescriptor,
      MStat.allocations, MStat.count]
  | insert c node cache k rand hpc hs =>
    right
    obtain he | he := enterAccess_cases g <;>
    simp [Thread.workload, Workload.next, observe, hpc, he, Pc.phase, hs, MStat.allocations]
  | select c receivers rand rand' hpc hs hr =>
    right
    simp [Thread.workload, Workload.next, observe, hpc, Pc.phase, hr, hs,
      MStat.allocations]
  | tick hpc | resume timeCounter hpc =>
    right
    have ha := account_of_step h hpc
    unfold account at ha
    dsimp only at ha
    split at ha
    · next hq =>
      rw [← Except.ok.inj ha]
      simp [Thread.workload, Workload.next, observe, hpc, Pc.phase, hq]
    · next hq =>
      rw [← Except.ok.inj ha]
      simp [Thread.workload, Workload.next, observe, hpc, Pc.phase, hq]
  | fetch c hpc =>
    left
    obtain he | he := enterAccess_cases g <;>
    simp [Thread.workload, observe, hpc, he, Pc.phase]
  | unreference node rest hpc hn =>
    left
    by_cases hz : (s.classes node.lsClass).referenceCounter - 1 = 0 <;>
    simp [Thread.workload, observe, hpc, hz, Pc.phase]
  | endRemove pc hpc hn he =>
    left
    obtain rfl | rfl := he <;> simp [Thread.workload, observe, hpc, Pc.phase]
  | deallocate node hpc hk =>
    left
    simp [Thread.workload, observe, hpc, Pc.phase, MStat.allocations, MStat.uncount]
  | _ =>
    left
    simp [Thread.workload, observe, Pc.phase, *]

/-- A run shows nothing of a thread that is not the one that takes the step. -/
theorem observe_of_ne (h : step g R i s = .ok s') (o : Nat → List Observation) {j : Nat}
    (hj : j ≠ i) :
    (s'.threads j).workload (Function.update o i (o i ++ observe i s s') j) =
      (s.threads j).workload (o j) := by
  rw [(step_move h).threads_of_ne hj, Function.update_of_ne hj]

/-- The start of a workload. -/
def Workload.start (g : GOptions) (R : Generator σ) (i : Nat) : Workload σ :=
  ((runAcdc g R).threads i).workload []

/-- Every run leads each thread along its workload. -/
theorem Observed.workload {o : Nat → List Observation} (hs : Observed g R s o) (i : Nat) :
    Relation.ReflTransGen (fun v w ↦ Workload.next g R v = some w) (.start g R i)
      ((s.threads i).workload (o i)) := by
  induction hs with
  | start => exact .refl
  | @step s s' o j hs hj h ih =>
    by_cases hij : i = j
    · subst hij
      rw [Function.update_self]
      obtain he | hn := workload_of_step h (o i)
      · rw [he]
        exact ih
      · exact ih.tail hn
    · rw [observe_of_ne h o hij]
      exact ih

/-- Every reachable state is that of an observed run. -/
theorem Reachable.observed (hs : Reachable g R s) : ∃ o, Observed g R s o := by
  induction hs with
  | start h => exact ⟨_, .start h⟩
  | step i _ hi h ih =>
    obtain ⟨o, ho⟩ := ih
    exact ⟨_, .step i ho hi h⟩

/-- The workload of a thread that has left its loop is at its end. -/
theorem next_of_left {th : Thread σ} (hpc : th.pc = .looping)
    (hr : g.benchmarkDuration.toInt ≤ th.runs) (o : List Observation) :
    (th.workload o).next g R = none := by
  have hlt : ¬ (th.runs : Int) < g.benchmarkDuration.toInt := by omega
  simp [Thread.workload, Workload.next, hpc, Pc.phase, hlt]

/-- A workload has one end. -/
theorem Workload.end_unique {u v w : Workload σ}
    (hv : Relation.ReflTransGen (fun v w ↦ Workload.next g R v = some w) u v)
    (hw : Relation.ReflTransGen (fun v w ↦ Workload.next g R v = some w) u w)
    (hv' : v.next g R = none) (hw' : w.next g R = none) : v = w := by
  have hu : Relator.RightUnique fun v w : Workload σ ↦ Workload.next g R v = some w := by
    intro a b c hb hc
    exact Option.some.inj (hb.symm.trans hc)
  have hstop {a b : Workload σ} (ha : a.next g R = none)
      (hab : Relation.ReflTransGen (fun v w ↦ Workload.next g R v = some w) a b) : a = b := by
    obtain rfl | ⟨c, hc, -⟩ := hab.cases_head
    · rfl
    · rw [ha] at hc
      cases hc
  obtain h | h := Relation.ReflTransGen.total_of_right_unique hu hv hw
  · exact hstop hv' h
  · exact (hstop hw' h).symm

/-- Two runs show the same of thread `i` and leave it with the same allocations. -/
structure SameWorkload (s t : Sys σ) (o o' : Nat → List Observation) (i : Nat) : Prop where
  shown : o i = o' i
  bytesAllocated : (s.threads i).mc.stat.bytesAllocated = (t.threads i).mc.stat.bytesAllocated
  objectsAllocated :
    (s.threads i).mc.stat.objectsAllocated = (t.threads i).mc.stat.objectsAllocated
  ltHistogram : (s.threads i).mc.stat.ltHistogram = (t.threads i).mc.stat.ltHistogram
  szHistogram : (s.threads i).mc.stat.szHistogram = (t.threads i).mc.stat.szHistogram

/-- Any two runs to completion show the same of each thread. -/
theorem sameWorkload_of_completed {t : Sys σ} {o o' : Nat → List Observation}
    (hs : Observed g R s o) (ht : Observed g R t o') (hcs : Completed g s)
    (hct : Completed g t) (hi : i < g.threads) : SameWorkload s t o o' i := by
  obtain ⟨hps, hrs⟩ := hcs i hi
  obtain ⟨hpt, hrt⟩ := hct i hi
  have he : (s.threads i).workload (o i) = (t.threads i).workload (o' i) :=
    Workload.end_unique (hs.workload i) (ht.workload i) (next_of_left hps hrs _)
      (next_of_left hpt hrt _)
  have hm : (s.threads i).mc.stat.allocations = (t.threads i).mc.stat.allocations :=
    congrArg Workload.stat he
  exact {
    shown := congrArg Workload.shown he
    bytesAllocated := (congrArg MStat.bytesAllocated hm :)
    objectsAllocated := (congrArg MStat.objectsAllocated hm :)
    ltHistogram := (congrArg MStat.ltHistogram hm :)
    szHistogram := (congrArg MStat.szHistogram hm :) }

/-- Options of two threads that share one collection each. -/
def oneTick : GOptions := { sharingOptions 2 1 0 100 with benchmarkDuration := 1 }

/-- Two threads, one after the other and in the opposite order: the collection of thread 0 is
deallocated by thread 1 in one run and by nobody in the other. -/
theorem sameWorkload_of_completed_two_orders :
    ∃ (s t : Sys Int32) (o o' : Nat → List Observation),
      deallocations s.log ⟨0, 0⟩ = [(1, 1)] ∧ deallocations t.log ⟨0, 0⟩ = [] ∧
        SameWorkload s t o o' 0 := by
  obtain ⟨s, hs, hd, hc⟩ := exists_of_endsIn oneTick (schrage oneTick)
    ([0, 1, 0, 1] ++ List.replicate 9 0 ++ List.replicate 12 1)
    (fun s ↦ deallocations s.log ⟨0, 0⟩ = [(1, 1)] ∧ Completed oneTick s)
    (by decide +kernel) (by decide)
  obtain ⟨t, ht, hd', hc'⟩ := exists_of_endsIn oneTick (schrage oneTick)
    ([0, 1, 0, 1] ++ List.replicate 9 1 ++ List.replicate 12 0)
    (fun t ↦ deallocations t.log ⟨0, 0⟩ = [] ∧ Completed oneTick t)
    (by decide +kernel) (by decide)
  obtain ⟨o, ho⟩ := hs.observed
  obtain ⟨o', ho'⟩ := ht.observed
  exact ⟨s, t, o, o', hd, hd', sameWorkload_of_completed ho ho' hc hc' (by decide)⟩

end Acdc
