import Acdc.Expiry

/-!
# Draining the shared heap-class

A thread fetches its shared heap-class only in an iteration in which it shares a collection
itself, `src/acdc.c:583–592`. From the fetch on a shared node waits in the local heap-class for
one revolution of the wheel at most, whatever its entry. Till then it stays in the pool.
-/

namespace Acdc

open Inventory TimingWheel

variable {σ : Type}

/-- Steps of any threads. -/
def Steps (g : GOptions) (R : Generator σ) : Sys σ → Sys σ → Prop :=
  Relation.ReflTransGen fun s s' ↦ ∃ i < g.threads, step g R i s = .ok s'

/-- The next step of thread `r` unlinks the node. -/
def Unlinking (g : GOptions) (r : Nat) (node : LSCNode) (s : Sys σ) : Prop :=
  (s.threads r).pc = .removing ∧ ∃ rest,
    (s.threads r).mc.heapClass[heapClassRemoveIndex g (s.threads r).mc.time]? = some (node :: rest)

/-- Thread `r` unlinks the node in a step between `s` and `s'` and decrements the counter of
its class. -/
def Unlinks (g : GOptions) (R : Generator σ) (r : Nat) (node : LSCNode) (s s' : Sys σ) : Prop :=
  ∃ t t', Steps g R s t ∧ Unlinking g r node t ∧ step g R r t = .ok t' ∧
    (t'.classes node.lsClass).referenceCounter = (t.classes node.lsClass).referenceCounter - 1 ∧
      Steps g R t' s'

/-- The node is in the shared or in the local heap-class of thread `r`. -/
def Holds (r : Nat) (node : LSCNode) (s : Sys σ) : Prop :=
  node ∈ bag (s.pools r) ∨ node ∈ bag (s.threads r).mc.heapClass

/-- The node is in the local entry that thread `r` removes at tick `T`, and that tick is still
to come. -/
def AwaitsTick (g : GOptions) (r : Nat) (node : LSCNode) (T : Nat) (s : Sys σ) : Prop :=
  (∃ l, (s.threads r).mc.heapClass[T % g.wheelSize]? = some l ∧ node ∈ l) ∧
    (s.threads r).now ≤ T

variable {g : GOptions} {R : Generator σ} {i j r : Nat} {s s' t : Sys σ} {node : LSCNode}

theorem Reachable.steps (hs : Reachable g R s) (h : Steps g R s t) : Reachable g R t := by
  induction h with
  | refl => exact hs
  | tail _ hst ih =>
    obtain ⟨i, hi, h⟩ := hst
    exact .step i ih hi h

/-- A removal stays a removal when the run goes on. -/
theorem Unlinks.steps (h : Unlinks g R r node s t) (ht : Steps g R t s') :
    Unlinks g R r node s s' := by
  obtain ⟨u, u', hu, hn, hst, hc, hu'⟩ := h
  exact ⟨u, u', hu, hn, hst, hc, hu'.trans ht⟩

/-- A removal that follows a run. -/
theorem Unlinks.of_steps (hs : Steps g R s t) (h : Unlinks g R r node t s') :
    Unlinks g R r node s s' := by
  obtain ⟨u, u', hu, hn, hst, hc, hu'⟩ := h
  exact ⟨u, u', hs.trans hu, hn, hst, hc, hu'⟩

private theorem unlinking_step (hn : Unlinking g r node s) (h : step g R r s = .ok s') :
    (s'.classes node.lsClass).referenceCounter =
        (s.classes node.lsClass).referenceCounter - 1 ∧
      .unreferenced r node.lsClass (s.classes node.lsClass).start ∈ s'.log := by
  obtain ⟨hpc, rest, hh⟩ := hn
  simp only [step, hpc, remove, hh] at h
  cases h
  simp

/-- What every step keeps until the node is unlinked is kept by every run until then. -/
theorem Steps.keeps {P : Sys σ → Prop} (hr : r < g.threads)
    (hP : ∀ s s' j, Reachable g R s → j < g.threads → step g R j s = .ok s' → P s →
      P s' ∨ j = r ∧ Unlinking g r node s)
    (hs : Reachable g R s) (h : Steps g R s t) (h0 : P s) : P t ∨ Unlinks g R r node s t := by
  induction h with
  | refl => exact .inl h0
  | @tail u v hu huv ih =>
    obtain ⟨j, hj, hst⟩ := huv
    obtain hp | hn := ih
    · obtain hv | ⟨rfl, hn⟩ := hP u v j (hs.steps hu) hj hst hp
      · exact .inl hv
      · exact .inr ⟨u, v, hu, hn, hst, (unlinking_step hn hst).1, .refl⟩
    · exact .inr (hn.steps (.single ⟨j, hj, hst⟩))

private theorem mem_entry_modify {hc : HeapClass} {k m : Nat} {new : LClass}
    (h : ∃ l, hc[k]? = some l ∧ node ∈ l) :
    ∃ l, (hc.modify m (· ++ new))[k]? = some l ∧ node ∈ l := by
  obtain ⟨l, hl, hn⟩ := h
  rw [List.getElem?_modify, hl]
  split
  · exact ⟨l ++ new, rfl, List.mem_append_left new hn⟩
  · exact ⟨l, rfl, hn⟩

private theorem mem_entry_set {hc : HeapClass} {k m : Nat} {n : LSCNode} {rest : LClass}
    (h : ∃ l, hc[k]? = some l ∧ node ∈ l) (hm : hc[m]? = some (n :: rest)) (hne : node ≠ n) :
    ∃ l, (hc.set m rest)[k]? = some l ∧ node ∈ l := by
  obtain ⟨l, hl, hn⟩ := h
  rw [List.getElem?_set]
  split
  · next he =>
    subst he
    rw [hm] at hl
    cases hl
    rw [if_pos (List.getElem?_eq_some_iff.mp hm).1]
    exact ⟨rest, rfl, (List.mem_cons.mp hn).resolve_left hne⟩
  · exact ⟨l, hl, hn⟩

private theorem Move.holds_of_ne (h : Move g R j s s') (hrj : r ≠ j) (hn : Holds r node s) :
    Holds r node s' := by
  rw [Holds, h.threads_of_ne hrj]
  cases h with
  | share c n r' pending cache k hpc ht hl =>
    by_cases hr : r = r'
    · subst hr
      simp only [Sys.emit_pools, Sys.put_pools, Sys.putPool_pools, Function.update_self,
        bag_modify_append _ _ hl, Multiset.mem_add]
      exact hn.imp_left .inl
    · simpa [Holds, Function.update_of_ne hr] using hn
  | fetch => simpa [Holds, Function.update_of_ne hrj] using hn
  | _ => exact hn

private theorem Move.holds (hD : 0 ≤ g.deallocationDelay.toInt) (hInv : Inv g s)
    (h : Move g R j s s') (hn : Holds r node s) :
    Holds r node s' ∨ j = r ∧ Unlinking g r node s := by
  by_cases hrj : r = j
  · subst hrj
    cases h with
    | insert c n cache k rand hpc hs ht hl =>
      left
      simp only [Holds, Sys.emit_pools, Sys.put_pools, Sys.putClass_pools, Sys.emit_threads,
        Sys.put_threads, Function.update_self, bag_modify_append _ _ hl, Multiset.mem_add]
      exact hn.imp_right .inl
    | share c n r' pending cache k hpc ht hl =>
      left
      by_cases hr : r = r'
      · subst hr
        simp only [Holds, Sys.emit_pools, Sys.put_pools, Sys.putPool_pools, Sys.emit_threads,
          Sys.put_threads, Function.update_self, bag_modify_append _ _ hl, Multiset.mem_add]
        exact hn.imp_left .inl
      · simpa [Holds, Function.update_of_ne hr] using hn
    | fetch c hpc =>
      left
      simp only [Holds, Sys.put_pools, Sys.putPool_pools, Sys.put_threads, Function.update_self,
        bag_getSharedLClasses g _ (hInv.pool r) (GOptions.hasWheel hD) (hInv.wheel r),
        Multiset.mem_add]
      exact .inr hn.symm
    | unreference n rest hpc hh =>
      by_cases hne : node = n
      · subst hne
        exact .inr ⟨rfl, hpc, rest, hh⟩
      · left
        simp only [Holds, Sys.emit_pools, Sys.put_pools, Sys.putClass_pools, Sys.emit_threads,
          Sys.put_threads, Function.update_self]
        rw [Holds, bag_set_tail _ _ hh, Multiset.mem_cons] at hn
        exact hn.imp_right (·.resolve_left hne)
    | _ =>
      left
      simpa [Holds] using hn
  · exact .inl (h.holds_of_ne hrj hn)

section Await

variable (hM : 0 < g.maxLiveness.toInt) (hD : g.deallocationDelay = 0)
include hM hD

private theorem removeIndex_eq (time : UInt32) :
    heapClassRemoveIndex g time = time.toNat % g.wheelSize := by
  have hd : g.delay = 0 := by rw [GOptions.delay, hD]; rfl
  have hD' : 0 ≤ g.deallocationDelay.toInt := by rw [hD]; decide
  have h := heapClassRemoveIndex_add_delay hM hD' time
  rwa [hd, Nat.add_zero, Nat.mod_eq_of_lt (heapClassRemoveIndex_lt hM hD' _)] at h

private theorem Move.awaitsTick (hs : Reachable g R s) (h : Move g R j s s') {T : Nat}
    (hw : AwaitsTick g r node T s) :
    AwaitsTick g r node T s' ∨ j = r ∧ Unlinking g r node s := by
  by_cases hrj : r = j
  · subst hrj
    obtain ⟨hn, hnow⟩ := hw
    cases h with
    | insert c n cache k rand hpc hs ht hl =>
      left
      refine ⟨by simpa using mem_entry_modify hn, ?_⟩
      obtain he | he := enterAccess_cases g <;>
      simpa [Thread.now, hpc, he, Pc.inRemoval] using hnow
    | fetch c hpc =>
      left
      have hpool := (hs.inv (by rw [hD]; decide)).pool r
      obtain ⟨l, hl, hm⟩ := hn
      refine ⟨?_, ?_⟩
      · simp only [Sys.put_threads, Function.update_self, getSharedLClasses_fst g _ hpool, hl]
        exact ⟨_, rfl, List.mem_append_left _ hm⟩
      · obtain he | he := enterAccess_cases g <;>
        simpa [Thread.now, hpc, he, Pc.inRemoval] using hnow
    | tick hpc =>
      left
      have ht := (hs.local r).toNat_time_succ (by rw [hpc]; rfl)
      refine ⟨by simpa using hn, ?_⟩
      simpa [Thread.now, hpc, Pc.inRemoval, ht] using hnow
    | unreference n rest hpc hh =>
      by_cases hne : node = n
      · subst hne
        exact .inr ⟨rfl, hpc, rest, hh⟩
      · left
        refine ⟨by simpa using mem_entry_set hn hh hne, ?_⟩
        by_cases hz : (s.classes n.lsClass).referenceCounter - 1 = 0 <;>
        simpa [Thread.now, hpc, hz, Pc.inRemoval] using hnow
    | endRemove pc hpc hh he =>
      left
      simp only [Thread.now, hpc, Pc.inRemoval, ite_true] at hnow
      -- the entry of the current tick is empty, so the tick of the node is a later one
      have hlt : (s.threads r).mc.time.toNat ≠ T := by
        rintro rfl
        obtain ⟨l, hl, hm⟩ := hn
        rw [removeIndex_eq hM hD, hl] at hh
        cases hh
        cases hm
      refine ⟨by simpa using hn, ?_⟩
      obtain rfl | rfl := he <;>
      · simp only [Thread.now, Sys.put_threads, Function.update_self, Pc.inRemoval]
        have := Nat.lt_of_le_of_ne hnow hlt
        simpa using this
    | _ =>
      left
      refine ⟨by simpa using hn, ?_⟩
      simpa [Thread.now, Pc.inRemoval, *] using hnow
  · left
    rw [AwaitsTick, h.threads_of_ne hrj]
    exact hw

private theorem exists_awaitsTick (hs : Reachable g R s)
    (hn : node ∈ bag (s.threads r).mc.heapClass) :
    ∃ T, T < (s.threads r).now + g.life ∧ AwaitsTick g r node T s := by
  have hInv := hs.inv (by rw [hD]; decide)
  have hlife : g.wheelSize = g.life := by
    have hd : g.delay = 0 := by rw [GOptions.delay, hD]; rfl
    rw [GOptions.wheelSize_eq hM (by rw [hD]; decide), hd, Nat.add_zero]
  obtain ⟨l, hl, hm⟩ := mem_bag.mp hn
  obtain ⟨k, hk⟩ := List.getElem?_of_mem hl
  have hkw : k < g.wheelSize := by
    rw [← hInv.wheel r]
    exact (List.getElem?_eq_some_iff.mp hk).1
  obtain ⟨T, hT, hlo, hhi⟩ := exists_of_window (s.threads r).now hkw
  exact ⟨T, hlife ▸ hhi, ⟨l, hT ▸ hk, hm⟩, hlo⟩

omit hM in
private theorem local_of_fetch (hs : Reachable g R s) {c : Slot}
    (hpc : (s.threads r).pc = .sharing c []) (h : step g R r s = .ok s')
    (hn : Holds r node s) :
    node ∈ bag (s'.threads r).mc.heapClass ∧
      (s'.threads r).now = (s.threads r).mc.time.toNat + 1 := by
  have hInv := hs.inv (by rw [hD]; decide)
  simp only [step, hpc, fetch] at h
  cases h
  refine ⟨?_, ?_⟩
  · simp only [Sys.put_threads, Function.update_self,
      bag_getSharedLClasses g _ (hInv.pool r) (GOptions.hasWheel (by rw [hD]; decide))
        (hInv.wheel r),
      Multiset.mem_add]
    exact hn.symm
  · obtain he | he := enterAccess_cases g <;> simp [Thread.now, he, Pc.inRemoval]

/-- A receiver that fetches its pool unlinks the nodes that were inserted before within one
revolution of the wheel. -/
theorem unlinks_of_fetch {s₁ s₂ s₃ : Sys σ} (hs : Reachable g R s₁) (hr : r < g.threads)
    (hn : Holds r node s₁) (h₁ : Steps g R s₁ s₂) {c : Slot}
    (hpc : (s₂.threads r).pc = .sharing c []) (h₂ : step g R r s₂ = .ok s₃)
    (h₃ : Steps g R s₃ t) (ht : (s₂.threads r).mc.time.toNat + g.life < (t.threads r).now) :
    Unlinks g R r node s₁ t := by
  have hs₂ := hs.steps h₁
  have hs₃ : Reachable g R s₃ := .step r hs₂ hr h₂
  have h₂₃ : Steps g R s₂ s₃ := .single ⟨r, hr, h₂⟩
  have hkept : Holds r node s₂ ∨ Unlinks g R r node s₁ s₂ :=
    h₁.keeps hr (fun u v j hu _ huv ↦
      (step_move huv).holds (by rw [hD]; decide) (hu.inv (by rw [hD]; decide))) hs hn
  obtain hk | hu := hkept
  · obtain ⟨hlocal, hnow⟩ := local_of_fetch hD hs₂ hpc h₂ hk
    obtain ⟨T, hT, hw⟩ := exists_awaitsTick hM hD hs₃ hlocal
    have hwait : AwaitsTick g r node T t ∨ Unlinks g R r node s₃ t :=
      h₃.keeps hr (fun u v j hu _ huv ↦ (step_move huv).awaitsTick hM hD hu) hs₃ hw
    obtain ⟨-, hle⟩ | hu := hwait
    · omega
    · exact hu.of_steps (h₁.trans h₂₃)
  · exact hu.steps (h₂₃.trans h₃)

/-- A class that is inserted into the shared heap-class of a receiver is unlinked by the
receiver within one revolution of the wheel after a fetch, and so within two revolutions
after the insertion if the receiver fetches in the first one. -/
theorem unlinked_in_time {s₀ s₁ : Sys σ} (hs : Reachable g R s₀) (hi : i < g.threads)
    {c : Slot} {pending : List Nat} (hpc : (s₀.threads i).pc = .sharing c (r :: pending))
    (hins : step g R i s₀ = .ok s₁) :
    ∃ node, node.lsClass = c ∧ bag (s₁.pools r) = node ::ₘ bag (s₀.pools r) ∧
      ∀ (s₂ s₃ t : Sys σ) (c' : Slot), Steps g R s₁ s₂ → (s₂.threads r).pc = .sharing c' [] →
        step g R r s₂ = .ok s₃ → Steps g R s₃ t →
          ((s₂.threads r).mc.time.toNat + g.life < (t.threads r).now → Unlinks g R r node s₁ t) ∧
          ((s₂.threads r).mc.time.toNat ≤ (s₀.threads r).mc.time.toNat + g.life →
            (s₀.threads r).mc.time.toNat + 2 * g.life < (t.threads r).now →
              Unlinks g R r node s₁ t) := by
  have hr : r < g.threads :=
    (hs.inv (by rw [hD]; decide)).receivers i c _ hpc r List.mem_cons_self
  have hs₁ : Reachable g R s₁ := .step i hs hi hins
  obtain ⟨node, hc, hbag⟩ : ∃ node : LSCNode, node.lsClass = c ∧
      bag (s₁.pools r) = node ::ₘ bag (s₀.pools r) := by
    have hm := step_move hins
    cases hm with
    | share c' n r' pending' cache k hpc' ht hl =>
      cases hpc.symm.trans hpc'
      refine ⟨⟨n, c⟩, rfl, ?_⟩
      simp only [Sys.emit_pools, Sys.put_pools, Sys.putPool_pools, Function.update_self]
      rw [bag_modify_append _ _ hl, Multiset.add_comm]
      rfl
    | _ => simp [hpc] at *
  refine ⟨node, hc, hbag, fun s₂ s₃ t c' h₁ hpc₂ h₂ h₃ ↦ ?_⟩
  have hn : Holds r node s₁ := .inl (by rw [hbag]; exact Multiset.mem_cons_self _ _)
  have hfetch := unlinks_of_fetch hM hD hs₁ hr hn h₁ hpc₂ h₂ h₃
  exact ⟨hfetch, fun h0 ht ↦ hfetch (by omega)⟩

end Await

/-! ### Runs -/

/-- Whether a schedule goes on from `s` to a state with a given property. -/
def goesOn (g : GOptions) (R : Generator σ) (is : List Nat) (s : Sys σ) (P : Sys σ → Prop)
    [DecidablePred P] : Bool :=
  match runSchedule g R is s with
  | .ok s' => P s'
  | .error _ => false

/-- A schedule takes steps. -/
theorem exists_of_goesOn (is : List Nat) (P : Sys σ → Prop) [DecidablePred P]
    (h : goesOn g R is s P = true) :
    ∃ s', runSchedule g R is s = .ok s' ∧ Steps g R s s' ∧ P s' := by
  unfold goesOn at h
  split at h
  · next s' hs' =>
    have hsteps : Steps g R s s' :=
      runSchedule_invariant g R .refl (fun i _ _ _ hi hs hu ↦ .tail hs ⟨i, hi, hu⟩) hs'
    exact ⟨s', hs', hsteps, of_decide_eq_true h⟩
  · cases h

/-- A schedule of one step. -/
theorem step_of_runSchedule (h : runSchedule g R [i] s = .ok s') : step g R i s = .ok s' := by
  obtain ⟨-, t, ht, h⟩ := runSchedule_cons g R h
  cases h
  exact ht

/-- Whether an event is the removal of a node of `c` by thread `r`. -/
def Event.unreferences (r : Nat) (c : Slot) : Event → Bool
  | .unreferenced i c' _ => i = r && c' = c
  | _ => false

/-- Removals stay in the log. -/
theorem Unlinks.unreferenced (h : Unlinks g R r node s t) :
    ∃ b, .unreferenced r node.lsClass b ∈ t.log := by
  obtain ⟨u, u', -, hn, hst, -, hu'⟩ := h
  refine ⟨(u.classes node.lsClass).start, ?_⟩
  induction hu' with
  | refl => exact (unlinking_step hn hst).2
  | tail _ hvw ih =>
    obtain ⟨j, -, h⟩ := hvw
    exact (step_move h).mem_log ih

/-- Two threads with one lifetime, the first of which shares every collection with both. -/
theorem unlinked_in_time_two_threads :
    ∃ (s₁ t : Sys Int32) (node : LSCNode), node.lsClass = ⟨0, 0⟩ ∧
      Unlinks (sharingOptions 2 1 0 100) (schrage (sharingOptions 2 1 0 100)) 1 node s₁ t := by
  have hd : Defined (sharingOptions 2 1 0 100) := by decide
  obtain ⟨s₀, -, h₀, hpc, h⟩ := exists_of_goesOn (g := sharingOptions 2 1 0 100)
    (R := schrage (sharingOptions 2 1 0 100))
    (s := runAcdc (sharingOptions 2 1 0 100) (schrage (sharingOptions 2 1 0 100)))
    [0, 1, 0, 1, 0, 0, 0] (fun s₀ ↦ (s₀.threads 0).pc = .sharing ⟨0, 0⟩ [1] ∧
      goesOn (sharingOptions 2 1 0 100) (schrage (sharingOptions 2 1 0 100)) [0] s₀
        (fun s₁ ↦ goesOn (sharingOptions 2 1 0 100) (schrage (sharingOptions 2 1 0 100))
          [1, 1, 1, 1] s₁ (fun s₂ ↦ (s₂.threads 1).pc = .sharing ⟨1, 0⟩ [] ∧
            (s₂.threads 1).mc.time = 0 ∧
            goesOn (sharingOptions 2 1 0 100) (schrage (sharingOptions 2 1 0 100)) [1] s₂
              (fun s₃ ↦ goesOn (sharingOptions 2 1 0 100) (schrage (sharingOptions 2 1 0 100))
                (List.replicate 7 1) s₃ (fun t ↦ (t.threads 1).now = 2)))))
    (by decide +kernel)
  obtain ⟨s₁, hs₁, h₁, h⟩ := exists_of_goesOn _ _ h
  obtain ⟨s₂, -, h₂, hpc₂, ht₂, h⟩ := exists_of_goesOn _ _ h
  obtain ⟨s₃, hs₃, -, h⟩ := exists_of_goesOn _ _ h
  obtain ⟨t, -, ht, hnow⟩ := exists_of_goesOn _ _ h
  have hs₀ : Reachable (sharingOptions 2 1 0 100) (schrage (sharingOptions 2 1 0 100)) s₀ :=
    Reachable.steps (.start hd) h₀
  obtain ⟨node, hc, -, hall⟩ := unlinked_in_time (by decide) rfl hs₀ (by decide) hpc
    (step_of_runSchedule hs₁)
  have hlt : (s₂.threads 1).mc.time.toNat + (sharingOptions 2 1 0 100).life <
      (t.threads 1).now := by
    rw [ht₂, hnow]
    decide
  exact ⟨s₁, t, node, hc, (hall s₂ s₃ t _ h₂ hpc₂ (step_of_runSchedule hs₃) ht).1 hlt⟩

/-- Options of two threads that share a fifth of their collections. -/
def rarelySharing : GOptions :=
  { sharingOptions 2 1 0 100 with sharedObjectsRatio := 20, seed := 2 }

/-- The second thread does not share in its first two ticks and leaves in its pool what the
first one has shared. -/
theorem not_forall_unlinked_in_time :
    ¬ ∀ (g : GOptions) (s₀ s₁ t : Sys Int32) (i r : Nat) (c : Slot) (pending : List Nat),
      g.sharedObjects ≠ 0 → 0 < g.maxLiveness.toInt → g.deallocationDelay = 0 →
      Reachable g (schrage g) s₀ → i < g.threads →
      (s₀.threads i).pc = .sharing c (r :: pending) → step g (schrage g) i s₀ = .ok s₁ →
      Steps g (schrage g) s₁ t →
      (s₀.threads r).mc.time.toNat + 2 * g.life < (t.threads r).now →
      ∃ node : LSCNode, node.lsClass = c ∧ bag (s₁.pools r) = node ::ₘ bag (s₀.pools r) ∧
        Unlinks g (schrage g) r node s₁ t := by
  intro hall
  have hd : Defined rarelySharing := by decide
  obtain ⟨s₀, -, h₀, hpc, ht₀, h⟩ := exists_of_goesOn (g := rarelySharing)
    (R := schrage rarelySharing) (s := runAcdc rarelySharing (schrage rarelySharing))
    [0, 1, 0, 1, 0, 0, 0] (fun s₀ ↦ (s₀.threads 0).pc = .sharing ⟨0, 0⟩ [1] ∧
      (s₀.threads 1).mc.time = 0 ∧
      goesOn rarelySharing (schrage rarelySharing) [0] s₀
        (fun s₁ ↦ goesOn rarelySharing (schrage rarelySharing) (List.replicate 14 1) s₁
          (fun t ↦ (t.threads 1).now = 3 ∧
            ∀ e ∈ t.log, e.unreferences 1 ⟨0, 0⟩ = false)))
    (by decide +kernel)
  obtain ⟨s₁, hs₁, h₁, h⟩ := exists_of_goesOn _ _ h
  obtain ⟨t, -, ht, hnow, hlog⟩ := exists_of_goesOn _ _ h
  have hlt : (s₀.threads 1).mc.time.toNat + 2 * rarelySharing.life < (t.threads 1).now := by
    rw [ht₀, hnow]
    decide
  obtain ⟨node, hc, -, hu⟩ := hall rarelySharing s₀ s₁ t 0 1 ⟨0, 0⟩ [] (by decide) (by decide)
    rfl (Reachable.steps (.start hd) h₀) (by decide) hpc (step_of_runSchedule hs₁) ht hlt
  obtain ⟨b, hb⟩ := hu.unreferenced
  have hf := hlog _ hb
  simp [Event.unreferences, hc] at hf

end Acdc
