import Acdc.Assertions
import Acdc.Percentages
import Acdc.Quanta

/-!
# Migration of class slots

A class slot belongs to the cache of the thread that drops the last reference to its collection.
Two threads that share every collection with both of them, and of which the first always drops its
references first, move the slots of the first thread to the second: every turn of the first thread
carves another one. The offset of a carved slot is a product of type `unsigned int`,
`src/lifetime-size-classes.c:46–49`, so the slot of turn `2 ^ 26` is that of turn 0 again, in which
the second thread has its collection by then.
-/

namespace Acdc

open Function (update)

variable {σ : Type}

/-- Two threads share every collection, one object of 16 bytes, with both of them until the next
tick. No time gap ends before the clock reaches the greatest `int`. -/
def migrating : GOptions :=
  { sharingOptions 2 1 0 100 with
    benchmarkDuration := 67108874
    maxTimeGap := 2147483647
    classBufferSize := 67108874 }

/-! ### Views -/

/-- What a thread has, up to the draws and the names of the nodes. -/
structure ThreadView where
  pc : Pc
  runs : Nat
  wheel : List Slot
  nodes : Nat
  classCache : List Slot
  classBufferCounter : Nat
  allocated : UInt64
  deallocated : UInt64

/-- What two threads and their shared memory have, up to the draws and the names of the nodes. -/
structure View where
  threads : Fin 2 → ThreadView
  pools : Fin 2 → List Slot
  counters : Slot → UInt64
  bytes : Slot → UInt64
  live : Multiset Slot

/-- The classes that the nodes of a heap-class lead to. -/
def targets (heapClass : HeapClass) : List Slot := heapClass.flatten.map LSCNode.lsClass

/-- The view of a thread. -/
def Thread.view (th : Thread σ) : ThreadView where
  pc := th.pc
  runs := th.runs
  wheel := targets th.mc.heapClass
  nodes := th.mc.nodeCache.length + (migrating.nodeLimit - th.mc.nodeBufferCounter)
  classCache := th.mc.classCache
  classBufferCounter := th.mc.classBufferCounter
  allocated := th.mc.stat.bytesAllocated
  deallocated := th.mc.stat.bytesDeallocated

/-- The view of a state. -/
def Sys.view (s : Sys σ) : View where
  threads i := (s.threads i).view
  pools r := targets (s.pools r)
  counters c := (s.classes c).referenceCounter
  bytes c := (s.classes c).objectSize * (s.classes c).numObjects
  live := live s.log

/-- Replacement of the view of one thread. -/
def View.put (v : View) (i : Fin 2) (th : ThreadView) : View :=
  { v with threads := update v.threads i th }

private theorem view_update {α β : Type} (view : α → β) (f : Nat → α) (i : Fin 2) (x : α) :
    (fun j : Fin 2 ↦ view (update f (i : Nat) x j)) =
      update (fun j : Fin 2 ↦ view (f j)) i (view x) := by
  funext j
  by_cases hj : j = i
  · simp [hj]
  · simp [Function.update_of_ne, hj, Fin.val_ne_of_ne hj]

private theorem update_both {α : Type} (f f' : Fin 2 → α) :
    update (update f 0 (f' 0)) 1 (f' 1) = f' := by
  apply funext_iff.mpr
  exact Fin.forall_fin_two.mpr ⟨by simp, by simp⟩

/-- A step of a thread changes its view. -/
theorem Sys.view_put (s : Sys σ) (i : Fin 2) (th : Thread σ) :
    (s.put i th).view = s.view.put i th.view := by
  have h := view_update Thread.view s.threads i th
  simp only [Sys.view, View.put, Sys.put_threads, h, Sys.put_pools, Sys.put_classes, Sys.put_log]

/-- A step on a pool changes its view. -/
theorem Sys.view_putPool (s : Sys σ) (r : Fin 2) (pool : HeapClass) :
    (s.putPool r pool).view = { s.view with pools := update s.view.pools r (targets pool) } := by
  have h := view_update targets s.pools r pool
  simp only [Sys.view, Sys.putPool_threads, Sys.putPool_pools, h, Sys.putPool_classes,
    Sys.putPool_log]

/-- A step on a descriptor changes its counter and its bytes. -/
theorem Sys.view_putClass (s : Sys σ) (c : Slot) (d : LSClass) :
    (s.putClass c d).view = { s.view with
      counters := update s.view.counters c d.referenceCounter
      bytes := update s.view.bytes c (d.objectSize * d.numObjects) } := by
  have hcounters := Function.comp_update LSClass.referenceCounter s.classes c d
  have hbytes := Function.comp_update (fun d : LSClass ↦ d.objectSize * d.numObjects) s.classes c d
  simp only [Sys.view, Sys.putClass_threads, Sys.putClass_pools, Sys.putClass_classes,
    Sys.putClass_log, View.mk.injEq, true_and, and_true]
  exact ⟨hcounters, hbytes⟩

-- the counter is not among the fields that the bytes of a class depend on
private theorem Sys.view_putCounter (s : Sys σ) (c : Slot) (k : UInt64) :
    (s.putClass c { s.classes c with referenceCounter := k }).view =
      { s.view with counters := update s.view.counters c k } := by
  have hbytes : update s.view.bytes c (s.view.bytes c) = s.view.bytes := Function.update_eq_self ..
  rw [Sys.view_putClass]
  change View.mk _ _ _ (update s.view.bytes c (s.view.bytes c)) _ = _
  rw [hbytes]

/-- An event changes the live collections. -/
theorem Sys.view_emit (s : Sys σ) (e : Event) :
    (s.emit e).view = { s.view with live := live (e :: s.log) } := rfl

/-! ### Steps -/

/-- The wheel has one entry, which expires at every tick. -/
theorem wheelSize_migrating : migrating.wheelSize = 1 := by decide

private theorem ranges_migrating : Ranges migrating :=
  ⟨by decide, by decide, by decide, by decide, by decide, by decide⟩

/-- Every collection has one object of 16 bytes. -/
theorem bytes_prepareProps (p : ObjectProps) :
    (prepareProps migrating p).size * (prepareProps migrating p).numObjects.toUInt64 = 16 := by
  rfl

variable {R : Generator σ} {s : Sys σ} {i : Fin 2}

/-- The slot that a thread takes next, and what is left of its pool of class slots. -/
def ThreadView.takeClass (th : ThreadView) (i : Fin 2) : Slot × List Slot × Nat :=
  match th.classCache with
  | c :: cache => (c, cache, th.classBufferCounter)
  | [] => (classSlot i th.classBufferCounter, [], th.classBufferCounter + 1)

private theorem takeClass_of_taken {th : Thread σ} {c : Slot} {cache : List Slot} {k size : Nat}
    (h : Taken size (classSlot i) th.mc.classCache th.mc.classBufferCounter c cache k) :
    th.view.takeClass i = (c, cache, k) := by
  simp only [ThreadView.takeClass, Thread.view]
  cases h' : th.mc.classCache <;> rw [h'] at h <;> cases h <;> rfl

/-- The view after a collection has been built. -/
def View.create (v : View) (i : Fin 2) : View :=
  let (c, cache, k) := (v.threads i).takeClass i
  { v.put i { v.threads i with
      pc := .placing c
      classCache := cache
      classBufferCounter := k
      allocated := (v.threads i).allocated + 16 } with
    counters := update v.counters c 0
    bytes := update v.bytes c 16
    live := c ::ₘ v.live }

/-- A thread that has a class slot left builds a collection. -/
theorem exists_create (hs : Reachable migrating R s) (hpc : (s.view.threads i).pc = .looping)
    (hr : (s.view.threads i).runs < 67108874)
    (hslot : (s.view.threads i).classCache ≠ [] ∨
      (s.view.threads i).classBufferCounter < 67108874) :
    ∃ s', Reachable migrating R s' ∧ s'.view = s.view.create i := by
  have hsafe := safeDraws_of_options (R := R) ranges_migrating (by decide) (by decide) (by decide)
    i s
  have hlt : ((s.threads i).runs : Int) < migrating.benchmarkDuration.toInt := by
    have : migrating.benchmarkDuration.toInt = 67108874 := by decide
    have : (s.threads i).runs < 67108874 := hr
    omega
  obtain ⟨hbad, -⟩ | ⟨-, -, ⟨-, s', c, hc, -⟩ | ⟨hno, -⟩⟩ :=
    create_cases (R := R) ranges_migrating (hs.iterates hpc hlt)
  · exact absurd hbad (not_or.mpr ⟨hsafe.count, by decide⟩)
  · have hst : step migrating R i s = .ok s' := by
      rw [step]
      rw [show (s.threads i).pc = .looping from hpc]
      exact hc
    refine ⟨s', .step i hs i.isLt hst, ?_⟩
    cases step_move hst with
    | create p₀ p rand c cache k hpc hr hp he hl hz hb ht =>
      subst he
      have htake : (s.view.threads i).takeClass i = (c, cache, k) := takeClass_of_taken ht
      rw [View.create, htake, Sys.view_emit, Sys.view_put, Sys.view_putClass]
      have hbytes := bytes_prepareProps p₀
      simp only [newDescriptor, hbytes]
      rfl
    | _ => simp_all [Sys.view, Thread.view]
  · exact absurd hslot hno

/-- Every selection keeps both threads. -/
theorem getRandomThreadSelection_migrating (rand : σ) :
    getRandomThreadSelection migrating R rand = .ok ([0, 1], rand) := rfl

/-- Every collection is shared, with both threads. -/
theorem exists_select {c : Slot} (hs : Reachable migrating R s)
    (hpc : (s.view.threads i).pc = .placing c) :
    ∃ s', Reachable migrating R s' ∧ s'.view =
      { s.view.put i { s.view.threads i with pc := .sharing c [0, 1] } with
        counters := update s.view.counters c 2 } := by
  have hsharing : getSharingDist migrating R (s.threads i).mc.rand =
      .ok (true, R.next (s.threads i).mc.rand) := by
    have hle := (percentage_bounds R (s.threads i).mc.rand).2
    have hratio : migrating.sharedObjectsRatio.toInt = 101 := by decide
    rw [getSharingDist_eq (by decide), decide_eq_true (by omega)]
  obtain ⟨s', hst⟩ : ∃ s', step migrating R i s = .ok s' := by
    rw [step, show (s.threads i).pc = .placing c from hpc]
    simp only [place, hsharing, getRandomThreadSelection_migrating, bind, Except.bind, if_true,
      pure, Except.pure]
    exact ⟨_, rfl⟩
  refine ⟨s', .step i hs i.isLt hst, ?_⟩
  cases step_move hst with
  | select c' receivers rand rand' hpc' hsh hr =>
    rw [getRandomThreadSelection_migrating] at hr
    cases hr
    cases (show Pc.placing c' = .placing c from hpc'.symm.trans hpc)
    rw [Sys.view_emit, Sys.view_put, Sys.view_putCounter]
    rfl
  | insert c' node cache k rand hpc' hsh =>
    rw [hsharing] at hsh
    cases hsh
  | _ => simp_all [Sys.view, Thread.view]

private theorem length_of_taken {cache₀ cache : List Slot} {k₀ k : Nat} {node : Slot}
    (h : Taken migrating.nodeLimit (Slot.mk i) cache₀ k₀ node cache k) :
    cache.length + (migrating.nodeLimit - k) =
      cache₀.length + (migrating.nodeLimit - k₀) - 1 := by
  cases h with
  | reused => simp
  | carved _ hk => simp; omega

private theorem exists_getLSCNode {th : Thread σ} (h : 0 < th.view.nodes) (i : Nat) :
    ∃ p, getLSCNode migrating i th.mc = .ok p := by
  have hlimit : migrating.nodeLimit = 8 := by decide
  have hsize : migrating.nodeBufferSize.toNat = 8 := by decide
  unfold getLSCNode
  split
  · exact ⟨_, rfl⟩
  · next hc =>
    simp only [Thread.view, hc, hlimit, List.length_nil] at h
    rw [if_neg (by omega), nodeSlot_eq, if_pos (by omega)]
    exact ⟨_, rfl⟩

/-- A thread that has a node left inserts its collection into the pool of a receiver. -/
theorem exists_share {c : Slot} {r : Fin 2} {pending : List Nat} (hs : Reachable migrating R s)
    (hpc : (s.view.threads i).pc = .sharing c (r :: pending))
    (hn : 0 < (s.view.threads i).nodes) :
    ∃ s', Reachable migrating R s' ∧ s'.view =
      { s.view.put i { s.view.threads i with
          pc := .sharing c pending
          nodes := (s.view.threads i).nodes - 1 } with
        pools := update s.view.pools r (s.view.pools r ++ [c]) } := by
  have hpool := (hs.inv (by decide)).pool r
  obtain ⟨entry, hentry⟩ := List.length_eq_one_iff.mp hpool
  have hindex : heapClassInsertIndex migrating (s.threads i).mc.time (s.classes c).lifetime = 0 :=
    Nat.mod_one _
  obtain ⟨s', hst⟩ : ∃ s', step migrating R i s = .ok s' := by
    obtain ⟨p, hp⟩ := exists_getLSCNode hn i
    have hlt : heapClassInsertIndex migrating (s.threads i).mc.time (s.classes c).lifetime <
        (s.pools r).length := by
      rw [hindex, hentry]
      exact Nat.zero_lt_one
    rw [step, show (s.threads i).pc = .sharing c (r :: pending) from hpc]
    simp only [share, heapClassInsert, hp, if_pos hlt, bind, Except.bind, pure, Except.pure]
    exact ⟨_, rfl⟩
  refine ⟨s', .step i hs i.isLt hst, ?_⟩
  cases step_move hst with
  | share c' node r' pending' cache k hpc' ht hl =>
    cases (show Pc.sharing c' (r' :: pending') = .sharing c (r :: pending) from
      hpc'.symm.trans hpc)
    rw [Sys.view_emit, Sys.view_put, Sys.view_putPool]
    have hlen := length_of_taken ht
    simp only [View.put, Thread.view, hlen]
    have htargets : targets ((s.pools r).modify
        (heapClassInsertIndex migrating (s.threads i).mc.time (s.classes c).lifetime)
        (· ++ [⟨node, c⟩])) = s.view.pools r ++ [c] := by
      simp [targets, Sys.view, hindex, hentry]
    rw [htargets]
    rfl
  | _ => simp_all [Sys.view, Thread.view]

/-- A thread fetches its pool. -/
theorem exists_fetch {c : Slot} (hs : Reachable migrating R s)
    (hpc : (s.view.threads i).pc = .sharing c []) :
    ∃ s', Reachable migrating R s' ∧ s'.view =
      { s.view.put i { s.view.threads i with
          pc := .accounting
          wheel := (s.view.threads i).wheel ++ s.view.pools i } with
        pools := update s.view.pools i [] } := by
  obtain ⟨entry, hentry⟩ := List.length_eq_one_iff.mp ((hs.inv (by decide)).pool i)
  obtain ⟨lClass, hwheel⟩ := List.length_eq_one_iff.mp ((hs.inv (by decide)).wheel i)
  obtain ⟨s', hst⟩ : ∃ s', step migrating R i s = .ok s' := by
    rw [step, show (s.threads i).pc = .sharing c [] from hpc]
    exact ⟨_, rfl⟩
  refine ⟨s', .step i hs i.isLt hst, ?_⟩
  cases step_move hst with
  | fetch c' hpc' =>
    have hfetch : getSharedLClasses migrating (s.threads i).mc.time (s.threads i).mc.heapClass
        (s.pools i) = ([lClass ++ entry], [[]]) := by
      rw [hwheel, hentry]
      change fetchLClass migrating _ ([lClass], [entry]) 0 = _
      have hindex : heapClassGetIndex migrating (s.threads i).mc.time (UInt32.ofNat 0) = 0 :=
        Nat.mod_one _
      rw [fetchLClass_eq _ _ _ (show 0 < [entry].length from Nat.zero_lt_one), hindex]
      rfl
    have htargets : (s.view.threads i).wheel ++ s.view.pools i = targets [lClass ++ entry] := by
      simp [Sys.view, Thread.view, targets, hwheel, hentry]
    rw [Sys.view_put, Sys.view_putPool]
    simp only [View.put, hfetch, htargets]
    rfl
  | _ => simp_all [Sys.view, Thread.view]

/-- A turn fills the quantum. -/
theorem exists_tick (hs : Reachable migrating R s)
    (hpc : (s.view.threads i).pc = .accounting) :
    ∃ s', Reachable migrating R s' ∧ s'.view =
      s.view.put i { s.view.threads i with
        pc := .removing
        runs := (s.view.threads i).runs + 1 } := by
  have hlt := (hs.timeCounter_lt ⟨by decide, by decide⟩ (by decide) (by decide)
    (show (s.threads i).pc = .accounting from hpc)).2
  have hle : migrating.timeQuantum ≤ (s.threads i).timeCounter +
      (s.threads i).sz * (s.threads i).numObjects.toUInt64 := by
    rw [UInt64.le_iff_toNat_le]
    exact Nat.lt_of_le_of_lt (Nat.zero_le _) hlt
  have hst : ∃ s', step migrating R i s = .ok s' ∧ s' = s.put i { s.threads i with
      mc := { (s.threads i).mc with time := (s.threads i).mc.time + 1 }
      pc := .removing
      timeCounter := 0
      runs := (s.threads i).runs + 1 } := by
    rw [step, show (s.threads i).pc = .accounting from hpc]
    exact ⟨_, if_pos hle, rfl⟩
  obtain ⟨s', hst, rfl⟩ := hst
  exact ⟨_, .step i hs i.isLt hst, Sys.view_put ..⟩

/-- A collection that has been built passes the assertions of `deallocate_LSClass`. -/
theorem Reachable.built_of_bytes {g : GOptions} (hs : Reachable g R s) {c : Slot}
    (h : (s.classes c).objectSize * (s.classes c).numObjects ≠ 0) : (s.classes c).Built g := by
  induction hs with
  | start => exact absurd rfl h
  | step j hs hj hst ih =>
    have hm := step_move hst
    have hm' := hm
    cases hm with
    | create p₀ p rand c' cache k hpc hr hp he hl hz hb ht =>
      by_cases hc : c = c'
      · subst hc
        simpa using hb
      · simp only [Sys.emit_classes, Sys.put_classes, Sys.putClass_classes,
          Function.update_of_ne hc] at h ⊢
        exact ih h
    | deallocate => exact ih h
    | _ =>
      -- the other moves change counters only
      have hi := (hm'.quiet (by simp [*]) (by simp [*])).initial c
      obtain ⟨-, hs, -, hn, -, -⟩ := LSClass.mk.inj hi
      exact (ih (by rwa [← hs, ← hn])).of_initial g hi

private theorem heapClassRemoveIndex_migrating (time : UInt32) :
    heapClassRemoveIndex migrating time = 0 :=
  Nat.lt_one_iff.mp (wheelSize_migrating ▸ heapClassRemoveIndex_lt (by decide) (by decide) time)

/-- A thread drops a reference. -/
theorem exists_unreference {c : Slot} {rest : List Slot} (hs : Reachable migrating R s)
    (hpc : (s.view.threads i).pc = .removing) (hw : (s.view.threads i).wheel = c :: rest) :
    ∃ s' node, node.lsClass = c ∧ Reachable migrating R s' ∧ s'.view =
      { s.view.put i { s.view.threads i with
          pc := if s.view.counters c - 1 = 0 then .deallocating node else .recycling node
          wheel := rest } with
        counters := update s.view.counters c (s.view.counters c - 1) } := by
  obtain ⟨lClass, hwheel⟩ := List.length_eq_one_iff.mp ((hs.inv (by decide)).wheel i)
  have hmap : lClass.map LSCNode.lsClass = c :: rest := by
    simpa [Sys.view, Thread.view, targets, hwheel] using hw
  obtain ⟨node, nodes, rfl, rfl, hrest⟩ := List.map_eq_cons_iff.mp hmap
  have hget : (s.threads i).mc.heapClass[heapClassRemoveIndex migrating (s.threads i).mc.time]? =
      some (node :: nodes) := by
    rw [heapClassRemoveIndex_migrating, hwheel]
    rfl
  obtain ⟨s', hst⟩ : ∃ s', step migrating R i s = .ok s' := by
    rw [step, show (s.threads i).pc = .removing from hpc]
    simp only [remove, hget]
    exact ⟨_, rfl⟩
  refine ⟨s', node, rfl, .step i hs i.isLt hst, ?_⟩
  cases step_move hst with
  | unreference node' nodes' hpc' hn =>
    cases hget.symm.trans hn
    have hset : targets ((s.threads i).mc.heapClass.set
        (heapClassRemoveIndex migrating (s.threads i).mc.time) nodes) = rest := by
      simp [heapClassRemoveIndex_migrating, hwheel, targets, hrest]
    rw [Sys.view_emit, Sys.view_put, Sys.view_putCounter]
    simp only [View.put, Thread.view, hset]
    rfl
  | endRemove pc hpc' hn =>
    cases hget.symm.trans hn
  | _ => simp_all [Sys.view, Thread.view]

/-- A thread deallocates a collection, which has been built, and keeps its slot. -/
theorem exists_deallocate {node : LSCNode} (hs : Reachable migrating R s)
    (hpc : (s.view.threads i).pc = .deallocating node) (hk : s.view.counters node.lsClass = 0)
    (hb : s.view.bytes node.lsClass ≠ 0) :
    ∃ s', Reachable migrating R s' ∧ s'.view =
      { s.view.put i { s.view.threads i with
          pc := .recycling node
          classCache := node.lsClass :: (s.view.threads i).classCache
          deallocated := (s.view.threads i).deallocated + s.view.bytes node.lsClass } with
        live := s.view.live.erase node.lsClass } := by
  obtain ⟨mc, hmc⟩ := deallocateLSClass_eq_ok migrating (s.threads i).mc node.lsClass
    (hs.built_of_bytes hb) hk
  obtain ⟨s', hst⟩ : ∃ s', step migrating R i s = .ok s' := by
    rw [step, show (s.threads i).pc = .deallocating node from hpc]
    simp only [deallocate, hmc, bind, Except.bind, pure, Except.pure]
    exact ⟨_, rfl⟩
  refine ⟨s', .step i hs i.isLt hst, ?_⟩
  have hbuilder := (hs.inv (by decide)).hasBuilder node.lsClass
  cases step_move hst with
  | deallocate node' hpc' hk' =>
    cases (show Pc.deallocating node' = .deallocating node from hpc'.symm.trans hpc)
    rw [Sys.view_emit, Sys.view_put]
    simp only [hbuilder, if_true]
    rfl
  | _ => simp_all [Sys.view, Thread.view]

/-- A thread recycles a node. -/
theorem exists_recycle {node : LSCNode} (hs : Reachable migrating R s)
    (hpc : (s.view.threads i).pc = .recycling node) :
    ∃ s', Reachable migrating R s' ∧ s'.view =
      s.view.put i { s.view.threads i with
        pc := .removing
        nodes := (s.view.threads i).nodes + 1 } := by
  have hst : ∃ s', step migrating R i s = .ok s' ∧ s' = s.put i { s.threads i with
      mc := recycleLSCNode (s.threads i).mc node.slot
      pc := .removing } := by
    rw [step, show (s.threads i).pc = .recycling node from hpc]
    exact ⟨_, rfl, rfl⟩
  obtain ⟨s', hst, rfl⟩ := hst
  refine ⟨_, .step i hs i.isLt hst, ?_⟩
  rw [Sys.view_put]
  simp only [Thread.view, recycleLSCNode, Sys.view, List.length_cons]
  congr 2
  omega

/-- A thread that has dropped its references starts its next turn. -/
theorem exists_endRemove (hs : Reachable migrating R s)
    (hpc : (s.view.threads i).pc = .removing) (hw : (s.view.threads i).wheel = [])
    (h0 : 0 < (s.view.threads i).runs) :
    ∃ s', Reachable migrating R s' ∧ s'.view =
      s.view.put i { s.view.threads i with pc := .looping } := by
  obtain ⟨lClass, hwheel⟩ := List.length_eq_one_iff.mp ((hs.inv (by decide)).wheel i)
  have hnil : lClass = [] := by
    simpa [Sys.view, Thread.view, targets, hwheel] using hw
  have hget : (s.threads i).mc.heapClass[heapClassRemoveIndex migrating (s.threads i).mc.time]? =
      some [] := by
    rw [heapClassRemoveIndex_migrating, hwheel, hnil]
    rfl
  have htime : ¬ (s.threads i).mc.time % migrating.maxTimeGap.toUInt32 = 0 := by
    have hclock := (hs.local i).clock
    have hle := (hs.local i).runs_le
    have hruns : 0 < (s.threads i).runs := h0
    have hduration : migrating.duration = 67108874 := by decide
    have hgap : migrating.maxTimeGap.toUInt32.toNat = 2147483647 := by decide
    rw [← UInt32.toNat_inj, UInt32.toNat_mod, hclock, hgap, Nat.mod_eq_of_lt (by omega),
      UInt32.toNat_zero]
    omega
  have hst : ∃ s', step migrating R i s = .ok s' ∧
      s' = s.put i { s.threads i with pc := .looping } := by
    rw [step, show (s.threads i).pc = .removing from hpc]
    simp only [remove, hget, if_neg htime]
    rw [if_neg (by decide)]
    exact ⟨_, rfl, rfl⟩
  obtain ⟨s', hst, rfl⟩ := hst
  exact ⟨_, .step i hs i.isLt hst, Sys.view_put ..⟩

/-! ### Turns -/

/-- The first half of a turn: a thread builds a collection and shares it with both threads. -/
def View.begin (v : View) (i : Fin 2) : View where
  threads := update v.threads i { v.threads i with
    pc := .sharing ((v.threads i).takeClass i).1 []
    nodes := (v.threads i).nodes - 2
    classCache := ((v.threads i).takeClass i).2.1
    classBufferCounter := ((v.threads i).takeClass i).2.2
    allocated := (v.threads i).allocated + 16 }
  pools r := v.pools r ++ [((v.threads i).takeClass i).1]
  counters := update v.counters ((v.threads i).takeClass i).1 2
  bytes := update v.bytes ((v.threads i).takeClass i).1 16
  live := ((v.threads i).takeClass i).1 ::ₘ v.live

/-- The collections that nodes lead to have been built. -/
def View.Sized (v : View) : Prop :=
  ∀ i, ∀ c ∈ (v.threads i).wheel ++ v.pools i, v.bytes c ≠ 0

private theorem View.begin_wheel (v : View) (i j : Fin 2) :
    ((v.begin i).threads j).wheel = (v.threads j).wheel := by
  by_cases hj : j = i
  · subst hj
    simp [begin]
  · simp [begin, hj]

/-- A collection that is shared has been built. -/
theorem View.Sized.begin {v : View} (h : v.Sized) (i : Fin 2) : (v.begin i).Sized := by
  intro j c hc
  rw [begin_wheel] at hc
  by_cases hi : c = ((v.threads i).takeClass i).1
  · simp only [View.begin, hi, Function.update_self]
    decide
  · simp only [View.begin, Function.update_of_ne hi]
    apply h j c
    simpa [View.begin, hi] using hc

/-- A thread that has a class slot and two nodes left makes the first half of its turn. -/
theorem exists_begin (hs : Reachable migrating R s) (hpc : (s.view.threads i).pc = .looping)
    (hr : (s.view.threads i).runs < 67108874)
    (hslot : (s.view.threads i).classCache ≠ [] ∨
      (s.view.threads i).classBufferCounter < 67108874)
    (hn : 2 ≤ (s.view.threads i).nodes) :
    ∃ s', Reachable migrating R s' ∧ s'.view = s.view.begin i := by
  obtain ⟨s₁, hs₁, h₁⟩ := exists_create hs hpc hr hslot
  have hpc₁ : (s₁.view.threads i).pc = .placing ((s.view.threads i).takeClass i).1 := by
    simp [h₁, View.create, View.put]
  obtain ⟨s₂, hs₂, h₂⟩ := exists_select hs₁ hpc₁
  have hpc₂ : (s₂.view.threads i).pc = .sharing ((s.view.threads i).takeClass i).1
      ((0 : Fin 2) :: [1]) := by
    simp [h₂, View.put]
  have hn₂ : 0 < (s₂.view.threads i).nodes := by
    simp only [h₂, h₁, View.create, View.put, Function.update_self]
    omega
  obtain ⟨s₃, hs₃, h₃⟩ := exists_share hs₂ hpc₂ hn₂
  have hpc₃ : (s₃.view.threads i).pc = .sharing ((s.view.threads i).takeClass i).1
      ((1 : Fin 2) :: []) := by
    simp [h₃, View.put]
  have hn₃ : 0 < (s₃.view.threads i).nodes := by
    simp only [h₃, h₂, h₁, View.create, View.put, Function.update_self]
    omega
  obtain ⟨s₄, hs₄, h₄⟩ := exists_share hs₃ hpc₃ hn₃
  refine ⟨s₄, hs₄, ?_⟩
  simp only [h₄, h₃, h₂, h₁, View.create, View.begin, View.put, Function.update_self,
    Function.update_idem, View.mk.injEq, and_true]
  refine ⟨by simp [Nat.sub_sub], ?_⟩
  rw [← update_both s.view.pools fun r ↦ s.view.pools r ++ [((s.view.threads i).takeClass i).1]]
  simp

/-- The first reference of a wheel is dropped, and with the last one the collection. -/
def View.drop (i : Fin 2) (v : View) (c : Slot) : View :=
  let th := { v.threads i with
    wheel := (v.threads i).wheel.tail
    nodes := (v.threads i).nodes + 1 }
  if v.counters c - 1 = 0 then
    { v.put i { th with
        classCache := c :: th.classCache
        deallocated := th.deallocated + v.bytes c } with
      counters := update v.counters c 0
      live := v.live.erase c }
  else { v.put i th with counters := update v.counters c (v.counters c - 1) }

/-- A thread drops the first reference of its wheel. -/
theorem exists_drop {c : Slot} {rest : List Slot} (hs : Reachable migrating R s)
    (hpc : (s.view.threads i).pc = .removing) (hw : (s.view.threads i).wheel = c :: rest)
    (hb : s.view.bytes c ≠ 0) :
    ∃ s', Reachable migrating R s' ∧ s'.view = s.view.drop i c := by
  obtain ⟨s₁, node, rfl, hs₁, h₁⟩ := exists_unreference hs hpc hw
  by_cases hz : s.view.counters node.lsClass - 1 = 0
  · have hpc₁ : (s₁.view.threads i).pc = .deallocating node := by simp [h₁, View.put, hz]
    obtain ⟨s₂, hs₂, h₂⟩ := exists_deallocate hs₁ hpc₁ (by simp [h₁, hz])
      (by simpa [h₁, View.put] using hb)
    have hpc₂ : (s₂.view.threads i).pc = .recycling node := by simp [h₂, View.put]
    obtain ⟨s₃, hs₃, h₃⟩ := exists_recycle hs₂ hpc₂
    refine ⟨s₃, hs₃, ?_⟩
    simp [h₃, h₂, h₁, View.drop, View.put, hz, hw, hpc]
  · have hpc₁ : (s₁.view.threads i).pc = .recycling node := by simp [h₁, View.put, hz]
    obtain ⟨s₂, hs₂, h₂⟩ := exists_recycle hs₁ hpc₁
    refine ⟨s₂, hs₂, ?_⟩
    simp [h₂, h₁, View.drop, View.put, hz, hw, hpc]

private theorem View.drop_self (i : Fin 2) (v : View) (c : Slot) :
    ((v.drop i c).threads i).pc = (v.threads i).pc ∧
      ((v.drop i c).threads i).runs = (v.threads i).runs ∧
      ((v.drop i c).threads i).wheel = (v.threads i).wheel.tail ∧
      (v.drop i c).bytes = v.bytes := by
  unfold drop
  dsimp only
  split <;> simp [put]

/-- A thread drops all references of its wheel. -/
theorem exists_drops {l : List Slot} (hs : Reachable migrating R s)
    (hpc : (s.view.threads i).pc = .removing) (hw : (s.view.threads i).wheel = l)
    (hb : ∀ c ∈ l, s.view.bytes c ≠ 0) :
    ∃ s', Reachable migrating R s' ∧ s'.view = l.foldl (View.drop i) s.view ∧
      (s'.view.threads i).pc = .removing ∧ (s'.view.threads i).wheel = [] ∧
      (s'.view.threads i).runs = (s.view.threads i).runs := by
  induction l generalizing s with
  | nil => exact ⟨s, hs, rfl, hpc, hw, rfl⟩
  | cons c rest ih =>
    obtain ⟨s₁, hs₁, h₁⟩ := exists_drop hs hpc hw (hb c List.mem_cons_self)
    obtain ⟨hpc₁, hr₁, hw₁, hb₁⟩ := View.drop_self i s.view c
    rw [← h₁] at hpc₁ hr₁ hw₁ hb₁
    obtain ⟨s₂, hs₂, h₂, hpc₂, hw₂, hr₂⟩ := ih hs₁ (hpc₁.trans hpc) (by rw [hw₁, hw]; rfl)
      (fun d hd ↦ by rw [hb₁]; exact hb d (List.mem_cons_of_mem c hd))
    exact ⟨s₂, hs₂, by rw [h₂, h₁]; rfl, hpc₂, hw₂, hr₂.trans hr₁⟩

/-- The second half of a turn: a thread fetches its pool and drops all references that it has. -/
def View.finish (v : View) (i : Fin 2) : View :=
  let fetched := { v.put i { v.threads i with
      pc := .removing
      runs := (v.threads i).runs + 1
      wheel := (v.threads i).wheel ++ v.pools i } with
    pools := update v.pools i [] }
  let dropped := ((v.threads i).wheel ++ v.pools i).foldl (View.drop i) fetched
  dropped.put i { dropped.threads i with pc := .looping }

/-- A thread that has shared its collection makes the second half of its turn. -/
theorem exists_finish {c : Slot} (hs : Reachable migrating R s)
    (hpc : (s.view.threads i).pc = .sharing c [])
    (hb : ∀ c ∈ (s.view.threads i).wheel ++ s.view.pools i, s.view.bytes c ≠ 0) :
    ∃ s', Reachable migrating R s' ∧ s'.view = s.view.finish i := by
  obtain ⟨s₁, hs₁, h₁⟩ := exists_fetch hs hpc
  obtain ⟨s₂, hs₂, h₂⟩ := exists_tick (i := i) hs₁ (by simp [h₁, View.put])
  obtain ⟨s₃, hs₃, h₃, hpc₃, hw₃, hr₃⟩ := exists_drops
    (l := (s.view.threads i).wheel ++ s.view.pools i) (i := i) hs₂ (by simp [h₂, View.put])
    (by simp [h₂, h₁, View.put]) (by simpa [h₂, h₁, View.put] using hb)
  obtain ⟨s₄, hs₄, h₄⟩ := exists_endRemove hs₃ hpc₃ hw₃ (by simp [hr₃, h₂, View.put])
  refine ⟨s₄, hs₄, ?_⟩
  simp [h₄, h₃, h₂, h₁, View.finish, View.put]

/-! ### Rounds -/

/-- A turn of each thread. Thread `i` shares its collection before thread `j`, and thread 0 drops
its references before thread 1. -/
def View.round (v : View) (i j : Fin 2) : View := (((v.begin i).begin j).finish 0).finish 1

/-- The threads are between two turns, with nodes and class slots at hand. -/
structure View.Ready (v : View) (k : Nat) : Prop where
  pc : ∀ i, (v.threads i).pc = .looping
  runs : ∀ i, (v.threads i).runs = k
  wheel : ∀ i, (v.threads i).wheel = []
  pool : ∀ i, v.pools i = []
  nodes : ∀ i, 2 ≤ (v.threads i).nodes
  slots : ∀ i, (v.threads i).classCache ≠ [] ∨ (v.threads i).classBufferCounter < 67108874

private theorem View.Ready.sized {v : View} {k : Nat} (h : v.Ready k) : v.Sized := by
  intro i c hc
  rw [h.wheel, h.pool] at hc
  cases hc

/-- A turn of one thread leaves the other and its pool. -/
theorem View.finish_frame (v : View) {i j : Fin 2} (hij : j ≠ i) :
    (v.finish i).threads j = v.threads j ∧ (v.finish i).pools j = v.pools j ∧
      (v.finish i).bytes = v.bytes := by
  have hdrops (l : List Slot) (w : View) : (l.foldl (View.drop i) w).threads j = w.threads j ∧
      (l.foldl (View.drop i) w).pools j = w.pools j ∧
      (l.foldl (View.drop i) w).bytes = w.bytes := by
    induction l generalizing w with
    | nil => exact ⟨rfl, rfl, rfl⟩
    | cons c l ih =>
      obtain ⟨ht, hp, hb⟩ := ih (w.drop i c)
      have hdrop : (w.drop i c).threads j = w.threads j ∧ (w.drop i c).pools j = w.pools j ∧
          (w.drop i c).bytes = w.bytes := by
        unfold drop
        dsimp only
        split <;> simp [put, Function.update_of_ne hij]
      exact ⟨ht.trans hdrop.1, hp.trans hdrop.2.1, hb.trans hdrop.2.2⟩
  obtain ⟨ht, hp, hb⟩ := hdrops ((v.threads i).wheel ++ v.pools i)
    { v.put i { v.threads i with
        pc := .removing
        runs := (v.threads i).runs + 1
        wheel := (v.threads i).wheel ++ v.pools i } with
      pools := update v.pools i [] }
  rw [finish]
  dsimp only [put] at ht hp hb ⊢
  rw [Function.update_of_ne hij] at ht hp ⊢
  exact ⟨ht, hp, hb⟩

/-- Threads between two turns make a round, in either order of the first halves. -/
theorem exists_round {k : Nat} {j : Fin 2} (hs : Reachable migrating R s) (hr : s.view.Ready k)
    (hk : k < 67108874) (hij : j ≠ i) :
    ∃ s', Reachable migrating R s' ∧ s'.view = s.view.round i j := by
  obtain ⟨s₁, hs₁, h₁⟩ := exists_begin hs (hr.pc i) (by rw [hr.runs]; exact hk) (hr.slots i)
    (hr.nodes i)
  have hj : s₁.view.threads j = s.view.threads j := by
    rw [h₁, View.begin]
    exact Function.update_of_ne hij ..
  obtain ⟨s₂, hs₂, h₂⟩ := exists_begin (i := j) hs₁ (by rw [hj, hr.pc])
    (by rw [hj, hr.runs]; exact hk) (by rw [hj]; exact hr.slots j) (by rw [hj]; exact hr.nodes j)
  have hsharing : ∀ r, ∃ c, (s₂.view.threads r).pc = .sharing c [] := by
    intro r
    rw [h₂]
    by_cases hrj : r = j
    · subst hrj
      simp [View.begin]
    · have hri : r = i := by omega
      subst hri
      simp [View.begin, h₁, hrj]
  have hsized : s₂.view.Sized := by
    rw [h₂, h₁]
    exact .begin (.begin hr.sized i) j
  obtain ⟨c₀, h₀⟩ := hsharing 0
  obtain ⟨c₁, hpc₁⟩ := hsharing 1
  obtain ⟨s₃, hs₃, h₃⟩ := exists_finish hs₂ h₀ (hsized 0)
  obtain ⟨ht, hp, hb⟩ := s₂.view.finish_frame (show (1 : Fin 2) ≠ 0 by decide)
  rw [← h₃] at ht hp hb
  obtain ⟨s₄, hs₄, h₄⟩ := exists_finish (i := 1) hs₃ (by rw [ht, hpc₁])
    (by rw [ht, hp, hb]; exact hsized 1)
  exact ⟨s₄, hs₄, by rw [h₄, h₃, h₂, h₁, View.round]⟩

/-- A round in which the collections have different slots: thread 1 keeps both of them. -/
theorem View.Ready.round_apart {v : View} {k : Nat} (hr : v.Ready k) {i j : Fin 2}
    (hij : i = 0 ∧ j = 1 ∨ i = 1 ∧ j = 0)
    (h : ((v.threads i).takeClass i).1 ≠ ((v.threads j).takeClass j).1) :
    (v.round i j).threads 0 = { v.threads 0 with
      runs := k + 1
      classCache := ((v.threads 0).takeClass 0).2.1
      classBufferCounter := ((v.threads 0).takeClass 0).2.2
      allocated := (v.threads 0).allocated + 16 } ∧
    (v.round i j).threads 1 = { v.threads 1 with
      runs := k + 1
      classCache := ((v.threads j).takeClass j).1 :: ((v.threads i).takeClass i).1 ::
        ((v.threads 1).takeClass 1).2.1
      classBufferCounter := ((v.threads 1).takeClass 1).2.2
      allocated := (v.threads 1).allocated + 16
      deallocated := (v.threads 1).deallocated + 16 + 16 } ∧
    (v.round i j).pools = fun _ ↦ [] := by
  have hn₀ := hr.nodes 0
  have hn₁ := hr.nodes 1
  have h21 : (2 : UInt64) - 1 = 1 := by decide
  obtain ⟨rfl, rfl⟩ | ⟨rfl, rfl⟩ := hij <;>
  · simp [round, finish, begin, put, drop, hr.wheel, hr.pool, hr.runs, hr.pc, h, h.symm, h21,
      update_both _ fun _ ↦ []]
    omega

/-- A round in which the collections have the same slot: thread 0 frees it, with the references
of both collections to drop, and the counter wraps. -/
theorem View.Ready.round_same {v : View} {k : Nat} (hr : v.Ready k) {c : Slot}
    (h₀ : ((v.threads 0).takeClass 0).1 = c) (h₁ : ((v.threads 1).takeClass 1).1 = c) :
    (v.round 1 0).threads 0 = { v.threads 0 with
      runs := k + 1
      classCache := c :: ((v.threads 0).takeClass 0).2.1
      classBufferCounter := ((v.threads 0).takeClass 0).2.2
      allocated := (v.threads 0).allocated + 16
      deallocated := (v.threads 0).deallocated + 16 } ∧
    (v.round 1 0).threads 1 = { v.threads 1 with
      runs := k + 1
      classCache := ((v.threads 1).takeClass 1).2.1
      classBufferCounter := ((v.threads 1).takeClass 1).2.2
      allocated := (v.threads 1).allocated + 16 } ∧
    (v.round 1 0).pools = (fun _ ↦ []) ∧ (v.round 1 0).counters c = 18446744073709551614 ∧
    c ∈ (v.round 1 0).live := by
  have hn₀ := hr.nodes 0
  have hn₁ := hr.nodes 1
  have h21 : (2 : UInt64) - 1 = 1 := by decide
  have hwrap : (-1 : UInt64) - 1 = 18446744073709551614 := by decide
  simp [round, finish, begin, put, drop, hr.wheel, hr.pool, hr.runs, hr.pc, h₀, h₁, h21, hwrap,
    update_both _ fun _ ↦ []]
  omega

/-! ### Runs -/

/-- After `k` rounds thread 0 has carved `k` slots and keeps none of them. The one that it carved
first is the next that thread 1 takes. -/
structure View.Migrated (k : Nat) (v : View) : Prop extends v.Ready k where
  classCache : (v.threads 0).classCache = []
  classBufferCounter : (v.threads 0).classBufferCounter = k
  migrated : ∃ cache, (v.threads 1).classCache = ⟨0, 0⟩ :: cache
  balance : (v.threads 0).allocated + (v.threads 1).allocated =
    (v.threads 0).deallocated + (v.threads 1).deallocated

/-- Both threads have passed the barrier. -/
theorem exists_started (R : Generator σ) : ∃ s, Reachable migrating R s ∧
    (∀ i, s.view.threads i = ⟨.looping, 0, [], 8, [], 0, 0, 0⟩) ∧ ∀ i, s.view.pools i = [] := by
  have hstart : Reachable migrating R (runAcdc migrating R) := .start (by decide)
  have harrive₀ := hstart.step 0 (by decide) rfl
  have harrive₁ := harrive₀.step 1 (by decide) rfl
  have hall : (0 / migrating.threads + 1) * migrating.threads ≤ 2 := by decide
  have hall' : (1 / migrating.threads + 1) * migrating.threads ≤ 2 := by decide
  have hdepart₀ := harrive₁.step 0 (by decide) (if_pos hall)
  have hdepart₁ := hdepart₀.step 1 (by decide) (if_pos hall')
  exact ⟨_, hdepart₁, Fin.forall_fin_two.mpr ⟨rfl, rfl⟩, fun _ ↦ rfl⟩

private theorem View.Ready.next {v : View} {k : Nat} (hr : v.Ready k) {i j : Fin 2}
    (hij : i = 0 ∧ j = 1 ∨ i = 1 ∧ j = 0)
    (h : ((v.threads i).takeClass i).1 ≠ ((v.threads j).takeClass j).1)
    (hk : ((v.threads 0).takeClass 0).2.2 < 67108874) : (v.round i j).Ready (k + 1) := by
  obtain ⟨h₀, h₁, hpools⟩ := hr.round_apart hij h
  refine ⟨?_, ?_, ?_, ?_, ?_, ?_⟩ <;>
    simp [Fin.forall_fin_two, h₀, h₁, hpools, hr.pc, hr.wheel, hr.nodes, hk]

private theorem migrated_first {v : View}
    (ht : ∀ i, v.threads i = ⟨.looping, 0, [], 8, [], 0, 0, 0⟩) (hp : ∀ i, v.pools i = []) :
    v.Ready 0 ∧ (v.round 1 0).Migrated 1 := by
  have hr : v.Ready 0 := by
    refine ⟨?_, ?_, ?_, hp, ?_, ?_⟩ <;>
    · intro i
      simp [ht]
  have ht₀ : (v.threads 0).takeClass 0 = (⟨0, 0⟩, [], 1) := by
    simp [ThreadView.takeClass, ht, classSlot_eq]
  have ht₁ : (v.threads 1).takeClass 1 = (⟨1, 0⟩, [], 1) := by
    simp [ThreadView.takeClass, ht, classSlot_eq]
  have happ : ((v.threads 1).takeClass 1).1 ≠ ((v.threads 0).takeClass 0).1 := by
    rw [ht₀, ht₁]
    decide
  obtain ⟨h₀, h₁, -⟩ := hr.round_apart (.inr ⟨rfl, rfl⟩) happ
  rw [ht₀, ht₁] at h₁
  rw [ht₀] at h₀
  refine ⟨hr, hr.next (.inr ⟨rfl, rfl⟩) happ (by rw [ht₀]; decide), ?_, ?_, ⟨[⟨1, 0⟩], ?_⟩, ?_⟩
  · rw [h₀]
  · rw [h₀]
  · rw [h₁]
  · simp [h₀, h₁, ht]

private theorem View.Migrated.next {v : View} {k : Nat} (h : v.Migrated k) (h1 : 1 ≤ k)
    (hk : k < 2 ^ 26) : (v.round 0 1).Migrated (k + 1) := by
  obtain ⟨cache, hcache⟩ := h.migrated
  have ht₀ : (v.threads 0).takeClass 0 = (⟨0, k⟩, [], k + 1) := by
    rw [ThreadView.takeClass, h.classCache, h.classBufferCounter]
    simp only [classSlot_eq, Nat.mod_eq_of_lt hk]
    rfl
  have ht₁ : (v.threads 1).takeClass 1 = (⟨0, 0⟩, cache, (v.threads 1).classBufferCounter) := by
    rw [ThreadView.takeClass, hcache]
  have happ : ((v.threads 0).takeClass 0).1 ≠ ((v.threads 1).takeClass 1).1 := by
    rw [ht₀, ht₁]
    simp only [ne_eq, Slot.mk.injEq, true_and]
    omega
  obtain ⟨h₀, h₁, -⟩ := h.round_apart (.inl ⟨rfl, rfl⟩) happ
  have hr := h.toReady.next (.inl ⟨rfl, rfl⟩) happ (by rw [ht₀]; dsimp only; omega)
  rw [ht₀, ht₁] at h₁
  rw [ht₀] at h₀
  refine ⟨hr, ?_, ?_, ⟨⟨0, k⟩ :: cache, ?_⟩, ?_⟩
  · rw [h₀]
  · rw [h₀]
  · rw [h₁]
  · have hb := h.balance
    simp only [h₀, h₁]
    grind

/-- For every number of rounds up to `2 ^ 26` there is a run in which thread 0 has carved as many
slots and keeps none of them. -/
theorem exists_migrated (R : Generator σ) {k : Nat} (h1 : 1 ≤ k) (hk : k ≤ 2 ^ 26) :
    ∃ s, Reachable migrating R s ∧ s.view.Migrated k := by
  induction k, h1 using Nat.le_induction with
  | base =>
    obtain ⟨s, hs, ht, hp⟩ := exists_started R
    obtain ⟨hr, hm⟩ := migrated_first ht hp
    obtain ⟨s', hs', h⟩ := exists_round (i := 1) (j := 0) hs hr (by decide) (by decide)
    exact ⟨s', hs', h ▸ hm⟩
  | succ k h1 ih =>
    obtain ⟨s, hs, hm⟩ := ih (by omega)
    obtain ⟨s', hs', h⟩ := exists_round (i := 0) (j := 1) hs hm.toReady (by omega) (by decide)
    exact ⟨s', hs', h ▸ hm.next h1 (by omega)⟩

/-- A slot that a thread has carved twice: it is the storage of a collection, in the cache of the
thread and referenced by nobody. -/
structure Wrapped (s : Sys σ) : Prop where
  looping : ∀ i < 2, (s.threads i).pc = .looping
  wheel : ∀ i < 2, (s.threads i).mc.heapClass.flatten = []
  pool : ∀ i < 2, (s.pools i).flatten = []
  live : ⟨0, 0⟩ ∈ live s.log
  cached : ⟨0, 0⟩ ∈ (s.threads 0).mc.classCache
  counter : (s.classes ⟨0, 0⟩).referenceCounter = 18446744073709551614
  balance : (s.threads 0).mc.stat.bytesAllocated + (s.threads 1).mc.stat.bytesAllocated =
    (s.threads 0).mc.stat.bytesDeallocated + (s.threads 1).mc.stat.bytesDeallocated + 16

/-- In the round after these thread 0 carves the slot in which thread 1 has its collection. -/
theorem exists_wrapped (R : Generator σ) : ∃ s, Reachable migrating R s ∧ Wrapped s := by
  obtain ⟨s, hs, hm⟩ := exists_migrated R (k := 2 ^ 26) (by decide) (by decide)
  obtain ⟨cache, hcache⟩ := hm.migrated
  have ht₀ : (s.view.threads 0).takeClass 0 = (⟨0, 0⟩, [], 2 ^ 26 + 1) := by
    rw [ThreadView.takeClass, hm.classCache, hm.classBufferCounter]
    simp only [classSlot_eq]
    rfl
  have ht₁ : (s.view.threads 1).takeClass 1 =
      (⟨0, 0⟩, cache, (s.view.threads 1).classBufferCounter) := by
    rw [ThreadView.takeClass, hcache]
  obtain ⟨s', hs', h⟩ := exists_round (i := 1) (j := 0) hs hm.toReady (by decide) (by decide)
  obtain ⟨h₀, h₁, hp, hc, hl⟩ := hm.toReady.round_same (c := ⟨0, 0⟩) (by rw [ht₀]) (by rw [ht₁])
  rw [← h] at h₀ h₁ hp hc hl
  have hpc : ∀ i, (s'.view.threads i).pc = .looping :=
    Fin.forall_fin_two.mpr ⟨by rw [h₀]; exact hm.pc 0, by rw [h₁]; exact hm.pc 1⟩
  have hw : ∀ i, (s'.view.threads i).wheel = [] :=
    Fin.forall_fin_two.mpr ⟨by rw [h₀]; exact hm.wheel 0, by rw [h₁]; exact hm.wheel 1⟩
  refine ⟨s', hs', fun i hi ↦ hpc ⟨i, hi⟩, fun i hi ↦ List.map_eq_nil_iff.mp (hw ⟨i, hi⟩),
    fun i hi ↦ List.map_eq_nil_iff.mp (congrFun hp ⟨i, hi⟩), hl, ?_, hc, ?_⟩
  · have hcache : (s'.threads 0).mc.classCache = _ := congrArg ThreadView.classCache h₀
    rw [hcache]
    exact List.mem_cons_self
  · have hb := hm.balance
    have hbalance : (s'.view.threads 0).allocated + (s'.view.threads 1).allocated =
        (s'.view.threads 0).deallocated + (s'.view.threads 1).deallocated + 16 := by
      simp only [h₀, h₁]
      grind
    exact hbalance

end Acdc
