import Acdc.Base.Barrier

/-!
# Spin barrier

The reusable barrier of `src/barrier.c`, whose counter is never reset. Threads increment the
counter and read it in any order. A thread that spins waits for the multiple of `max` that
completes the round in which it fetched the counter.
-/

namespace Acdc

open Barrier

/-- `src/barrier.h:10–13`. -/
structure SpinBarrier where
  count : UInt64
  max : UInt32
  deriving DecidableEq, Repr

/-- `src/barrier.c:11–15`. -/
def spinBarrierInit (numThreads : UInt32) : SpinBarrier := ⟨0, numThreads⟩

namespace SpinBarrier

/-- The atomic increment; `src/barrier.c:18`. -/
def fetchAndAdd (b : SpinBarrier) : UInt64 × SpinBarrier :=
  (b.count, { b with count := b.count + 1 })

/-- The count to wait for; `src/barrier.c:19`. -/
def next (b : SpinBarrier) (oldCount : UInt64) : UInt64 :=
  (oldCount / b.max.toUInt64) * b.max.toUInt64 + b.max.toUInt64

end SpinBarrier

/-- A thread that calls `spin_barrier_wait` again and again: the counts that its calls fetched,
the number of calls that returned, and the count that it spins on inside a call. -/
structure SpinThread where
  oldCounts : List UInt64
  returned : Nat
  next : Option UInt64
  deriving DecidableEq, Repr

namespace SpinThread

/-- The number of calls that incremented the counter. -/
def started (t : SpinThread) : Nat := t.oldCounts.length

end SpinThread

/-- The barrier and its threads. -/
structure SpinState where
  barrier : SpinBarrier
  threads : Nat → SpinThread

namespace SpinState

/-- No thread has called yet. -/
def start (numThreads : UInt32) : SpinState := ⟨spinBarrierInit numThreads, fun _ ↦ ⟨[], 0, none⟩⟩

/-- A call begins with the increment; `src/barrier.c:18–19`. -/
def enter (s : SpinState) (i : Nat) : SpinState :=
  let t := s.threads i
  let (oldCount, barrier) := s.barrier.fetchAndAdd
  { barrier := barrier
    threads := Function.update s.threads i
      { t with oldCounts := t.oldCounts ++ [oldCount], next := some (barrier.next oldCount) } }

/-- A call returns; `src/barrier.c:23`. -/
def leave (s : SpinState) (i : Nat) : SpinState :=
  let t := s.threads i
  { s with
    threads := Function.update s.threads i { t with returned := t.returned + 1, next := none } }

/-- The next access of a thread to the counter, an increment or a read; `src/barrier.c:16–24`. -/
def step (s : SpinState) (i : Nat) : SpinState :=
  match (s.threads i).next with
  | none => s.enter i
  | some next => if s.barrier.count < next then s else s.leave i

/-- Accesses of the threads in the order of a schedule. -/
def run (s : SpinState) (schedule : List Nat) : SpinState := schedule.foldl step s

/-- The number of increments by the first `n` threads. -/
def increments (n : Nat) (s : SpinState) : Nat := ∑ i ∈ Finset.range n, (s.threads i).started

end SpinState

open SpinState

/-- The counts to wait for stay below `2 ^ 64` over a number of increments. -/
def TargetsFit (max : UInt32) (increments : Nat) : Prop :=
  ∀ c < increments, (c / max.toNat + 1) * max.toNat < 2 ^ 64

private theorem TargetsFit.lt_size {max : UInt32} {n : Nat} (h : TargetsFit max n)
    (hmax : 0 < max.toNat) : n < 2 ^ 64 := by
  cases n with
  | zero => decide
  | succ n =>
    have hlt : n < (n / max.toNat + 1) * max.toNat :=
      Nat.lt_mul_of_div_lt (Nat.lt_succ_self _) hmax
    have hn := h n (Nat.lt_succ_self n)
    omega

variable {max : UInt32} {s : SpinState} {i j k n : Nat}

/-! ### The invariant -/

/-- A thread of a barrier with `n` increments. A call waits for the end of the round in which it
began, and has returned only from a complete round. -/
structure SpinThread.Inv (max : UInt32) (n : Nat) (t : SpinThread) : Prop where
  oldCount : ∀ k (hk : k < t.oldCounts.length),
    k * max.toNat ≤ t.oldCounts[k].toNat ∧ t.oldCounts[k].toNat < (k + 1) * max.toNat
  outside : t.next = none → t.started = t.returned
  inside : ∀ next, t.next = some next →
    t.started = t.returned + 1 ∧ next.toNat = t.started * max.toNat
  complete : t.returned * max.toNat ≤ n

/-- The counter has all increments, and the rounds are those of a cyclic barrier. -/
structure SpinState.Inv (max : UInt32) (n : Nat) (s : SpinState) : Prop where
  barrier : s.barrier = ⟨UInt64.ofNat n, max⟩
  rounds : Rounds max.toNat (fun i ↦ (s.threads i).started) n
  threads : ∀ i < max.toNat, (s.threads i).Inv max n

theorem inv_start (max : UInt32) : (start max).Inv max 0 where
  barrier := rfl
  rounds := rounds_zero max.toNat
  threads _ _ := ⟨nofun, fun _ ↦ rfl, nofun, Nat.le_of_eq (Nat.zero_mul _)⟩

private theorem SpinThread.Inv.mono {t : SpinThread} {m : Nat} (h : t.Inv max n) (hm : n ≤ m) :
    t.Inv max m :=
  { h with complete := h.complete.trans hm }

/-- The count to wait for in the round of an increment. -/
theorem toNat_next {oldCount : UInt64} {b : SpinBarrier}
    (hfit : (oldCount.toNat / b.max.toNat + 1) * b.max.toNat < 2 ^ 64) :
    (b.next oldCount).toNat = (oldCount.toNat / b.max.toNat + 1) * b.max.toNat := by
  rw [Nat.add_mul, Nat.one_mul] at hfit ⊢
  rw [SpinBarrier.next, UInt64.toNat_add, UInt64.toNat_mul, UInt64.toNat_div,
    UInt32.toNat_toUInt64, Nat.mod_add_mod]
  exact Nat.mod_eq_of_lt hfit

namespace SpinState

theorem threads_enter (s : SpinState) (i : Nat) :
    (s.enter i).threads = Function.update s.threads i
      { s.threads i with
        oldCounts := (s.threads i).oldCounts ++ [s.barrier.count]
        next := some (s.barrier.next s.barrier.count) } := rfl

theorem threads_leave (s : SpinState) (i : Nat) :
    (s.leave i).threads = Function.update s.threads i
      { s.threads i with
        returned := (s.threads i).returned + 1
        next := none } := rfl

/-- A call that begins is counted. -/
theorem started_enter (s : SpinState) (i : Nat) :
    (fun j ↦ ((s.enter i).threads j).started) =
      Function.update (fun j ↦ (s.threads j).started) i ((s.threads i).started + 1) := by
  ext j
  by_cases hj : j = i
  · subst hj
    rw [threads_enter, Function.update_self, Function.update_self, SpinThread.started,
      List.length_append]
    rfl
  · rw [threads_enter, Function.update_of_ne hj, Function.update_of_ne hj]

/-- A return begins no call. -/
theorem started_leave (s : SpinState) (i : Nat) :
    (fun j ↦ ((s.leave i).threads j).started) = fun j ↦ (s.threads j).started := by
  ext j
  by_cases hj : j = i
  · subst hj
    rw [threads_leave, Function.update_self]
    rfl
  · rw [threads_leave, Function.update_of_ne hj]

private theorem Inv.rounds_enter (h : s.Inv max n) (hi : i < max.toNat)
    (hnone : (s.threads i).next = none) :
    n / max.toNat = (s.threads i).started ∧
      Rounds max.toNat (fun j ↦ ((s.enter i).threads j).started) (n + 1) := by
  have hcomplete : (s.threads i).started * max.toNat ≤ n := by
    rw [(h.threads i hi).outside hnone]
    exact (h.threads i hi).complete
  rw [started_enter]
  exact h.rounds.enter hi hcomplete

/-- An increment, by a thread that is in no call. -/
theorem Inv.enter (h : s.Inv max n) (hi : i < max.toNat) (hnone : (s.threads i).next = none)
    (hfit : (n / max.toNat + 1) * max.toNat < 2 ^ 64) : (s.enter i).Inv max (n + 1) := by
  have ht := h.threads i hi
  have hstarted := ht.outside hnone
  obtain ⟨hround, hrounds⟩ := h.rounds_enter hi hnone
  have hlt : n < (n / max.toNat + 1) * max.toNat :=
    Nat.lt_mul_of_div_lt (Nat.lt_succ_self _) (by omega)
  have hcount : s.barrier.count.toNat = n := by
    rw [h.barrier]
    exact UInt64.toNat_ofNat_of_lt' (show n < 2 ^ 64 by omega)
  constructor
  · rw [SpinState.enter, SpinBarrier.fetchAndAdd, h.barrier]
    simp only [UInt64.ofNat_add]
    rfl
  · exact hrounds
  · intro j hj
    by_cases hji : j = i
    · subst hji
      rw [threads_enter, Function.update_self]
      have hlen : ((s.threads j).oldCounts ++ [s.barrier.count]).length =
          (s.threads j).started + 1 := List.length_append
      constructor
      · intro k hk
        by_cases hlast : k < (s.threads j).oldCounts.length
        · rw [List.getElem_append_left hlast]
          exact ht.oldCount k hlast
        · obtain rfl : k = n / max.toNat := by
            rw [hround]
            rw [hlen] at hk
            exact Nat.le_antisymm (Nat.lt_succ_iff.mp hk) (Nat.le_of_not_lt hlast)
          rw [List.getElem_append_right (Nat.le_of_not_lt hlast), List.getElem_singleton, hcount]
          exact ⟨Nat.div_mul_le_self _ _, hlt⟩
      · exact nofun
      · intro next hnext
        cases hnext
        have hmax : s.barrier.max = max := by rw [h.barrier]
        rw [← hcount, ← hmax] at hfit
        rw [toNat_next hfit, hcount, hmax, hround, SpinThread.started, hlen, hstarted]
        exact ⟨rfl, rfl⟩
      · exact ht.complete.trans (Nat.le_succ n)
    · rw [threads_enter, Function.update_of_ne hji]
      exact (h.threads j hj).mono (Nat.le_succ n)

/-- A return, by a thread whose round is complete. -/
theorem Inv.leave {next : UInt64} (h : s.Inv max n) (hi : i < max.toNat)
    (hsome : (s.threads i).next = some next) (hle : next.toNat ≤ n) : (s.leave i).Inv max n := by
  have ht := h.threads i hi
  obtain ⟨hstarted, hnext⟩ := ht.inside next hsome
  constructor
  · exact h.barrier
  · rw [started_leave]
    exact h.rounds
  · intro j hj
    by_cases hji : j = i
    · subst hji
      rw [threads_leave, Function.update_self]
      exact ⟨ht.oldCount, fun _ ↦ hstarted, nofun, by rwa [← hstarted, ← hnext]⟩
    · rw [threads_leave, Function.update_of_ne hji]
      exact h.threads j hj

/-- An access keeps the invariant if the count to wait for fits. -/
theorem Inv.step (h : s.Inv max n) (hi : i < max.toNat)
    (hfit : TargetsFit max ((s.step i).increments max.toNat)) :
    (s.step i).Inv max ((s.step i).increments max.toNat) := by
  rw [SpinState.step] at hfit ⊢
  split at hfit
  · next hnone =>
    have hinc : (s.enter i).increments max.toNat = n + 1 := (h.rounds_enter hi hnone).2.total
    rw [hinc] at hfit ⊢
    exact h.enter hi hnone (hfit n (Nat.lt_succ_self n))
  · next next hsome =>
    split
    · rw [show s.increments max.toNat = n from h.rounds.total]
      exact h
    · next hge =>
      have hinc : (s.leave i).increments max.toNat = n := by
        rw [increments, started_leave]
        exact h.rounds.total
      have hmod : s.barrier.count.toNat ≤ n := by
        rw [h.barrier, UInt64.toNat_ofNat']
        exact Nat.mod_le _ _
      rw [UInt64.lt_iff_toNat_lt] at hge
      rw [hinc]
      exact h.leave hi hsome (by omega)

/-! ### Runs -/

/-- No access takes a call back. -/
theorem started_le_step (s : SpinState) (i j : Nat) :
    (s.threads j).started ≤ ((s.step i).threads j).started := by
  rw [step]
  split
  · rw [congrFun (started_enter s i) j]
    by_cases hj : j = i
    · subst hj
      rw [Function.update_self]
      exact Nat.le_succ _
    · rw [Function.update_of_ne hj]
  · split
    · exact le_rfl
    · rw [congrFun (started_leave s i) j]

theorem started_le_run (s : SpinState) (schedule : List Nat) (j : Nat) :
    (s.threads j).started ≤ ((s.run schedule).threads j).started := by
  induction schedule generalizing s with
  | nil => exact le_rfl
  | cons i schedule ih => exact (started_le_step s i j).trans (ih (s.step i))

theorem run_append (s : SpinState) (xs ys : List Nat) : s.run (xs ++ ys) = (s.run xs).run ys :=
  List.foldl_append

/-- Counts to wait for that fit at the end of a run fit all along. -/
theorem targetsFit_of_run (schedule : List Nat)
    (hfit : TargetsFit max ((s.run schedule).increments max.toNat)) :
    TargetsFit max (s.increments max.toNat) := by
  intro c hc
  apply hfit c (hc.trans_le _)
  exact Finset.sum_le_sum fun j _ ↦ started_le_run s schedule j

/-- A run keeps the invariant. -/
theorem Inv.run {schedule : List Nat} (h : s.Inv max n) (hs : ∀ i ∈ schedule, i < max.toNat)
    (hfit : TargetsFit max ((s.run schedule).increments max.toNat)) :
    (s.run schedule).Inv max ((s.run schedule).increments max.toNat) := by
  induction schedule generalizing s n with
  | nil =>
    rw [SpinState.run, List.foldl_nil, show s.increments max.toNat = n from h.rounds.total]
    exact h
  | cons i schedule ih =>
    have hi := hs i List.mem_cons_self
    have hstep := h.step hi (targetsFit_of_run schedule hfit)
    exact ih hstep (fun j hj ↦ hs j (List.mem_cons_of_mem _ hj)) hfit

/-- A call that returned did so after all threads had begun theirs. -/
theorem Inv.lt_started (h : s.Inv max n) (hi : i < max.toNat) (hk : k < (s.threads i).returned)
    (hj : j < max.toNat) : k < (s.threads j).started := by
  have hmul := Nat.mul_le_mul_right max.toNat (Nat.succ_le_of_lt hk)
  exact h.rounds.complete_iff.mp (hmul.trans (h.threads i hi).complete) j hj

/-- A call that spins after all threads have begun theirs finds the counter at its target. -/
theorem Inv.next_le (h : s.Inv max n) (hi : i < max.toNat) (hn : n < 2 ^ 64)
    (hall : ∀ j < max.toNat, k < (s.threads j).started) (hk : (s.threads i).started = k + 1)
    {next : UInt64} (hnext : (s.threads i).next = some next) : next ≤ s.barrier.count := by
  have hcomplete := h.rounds.complete_iff.mpr hall
  rw [UInt64.le_iff_toNat_le, ((h.threads i hi).inside next hnext).2, hk, h.barrier,
    UInt64.toNat_ofNat_of_lt' hn]
  exact hcomplete

end SpinState

/-- The rounds of the barrier are separated in every run of its threads. No call returns before
all threads have begun theirs, a call fetches a count of its own round, and once all threads have
begun a call, no later access makes one of them wait in it. -/
theorem spinBarrier_separates (xs ys : List Nat) (hxs : ∀ i ∈ xs, i < max.toNat)
    (hys : ∀ i ∈ ys, i < max.toNat)
    (hfit : TargetsFit max (((start max).run (xs ++ ys)).increments max.toNat)) :
    (∀ i < max.toNat, ∀ k < (((start max).run xs).threads i).returned, ∀ j < max.toNat,
      k < (((start max).run xs).threads j).started) ∧
    (∀ i < max.toNat, ∀ k oldCount,
      (((start max).run xs).threads i).oldCounts[k]? = some oldCount →
        k * max.toNat ≤ oldCount.toNat ∧ oldCount.toNat < (k + 1) * max.toNat) ∧
    ∀ k, (∀ j < max.toNat, k < (((start max).run xs).threads j).started) →
      ∀ i < max.toNat, (((start max).run (xs ++ ys)).threads i).started = k + 1 →
        ∀ next, (((start max).run (xs ++ ys)).threads i).next = some next →
          ¬ ((start max).run (xs ++ ys)).barrier.count < next := by
  rw [run_append] at hfit ⊢
  have hinv := (inv_start max).run hxs (targetsFit_of_run ys hfit)
  have hinv' := hinv.run hys hfit
  refine ⟨fun i hi k hk j hj ↦ hinv.lt_started hi hk hj, fun i hi k oldCount hk ↦ ?_,
    fun k hall i hi hk next hnext ↦ ?_⟩
  · obtain ⟨hlt, rfl⟩ := List.getElem?_eq_some_iff.mp hk
    exact (hinv.threads i hi).oldCount k hlt
  · apply UInt64.not_lt.mpr
    apply hinv'.next_le hi _ (fun j hj ↦ (hall j hj).trans_le (started_le_run _ ys j)) hk hnext
    exact hfit.lt_size (Nat.zero_lt_of_lt hi)

/-- Thread 0 begins its second call while thread 1 still spins in the first one. -/
theorem spinBarrier_separates_two :
    let s := (start 2).run [0, 1, 0, 0]
    (s.threads 1).next = some 2 ∧ ¬ s.barrier.count < 2 := by
  intro s
  have hfit : TargetsFit 2 (s.increments 2) := by
    unfold TargetsFit
    decide
  have h := spinBarrier_separates [0, 1] [0, 0] (by decide) (by decide) hfit
  exact ⟨by decide, h.2.2 0 (by decide) 1 (by decide) (by decide) 2 (by decide)⟩

end Acdc
