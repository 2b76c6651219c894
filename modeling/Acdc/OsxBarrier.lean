import Acdc.Base.Barrier
import Acdc.Base.CyclicBarrier
import Acdc.Threads

/-!
# The barrier for macOS

`pthread_barrier_wait` of `src/osx-barrier.c`, which the threads of `src/acdc.c:532,619` call
where the system has no barrier of its own. Callers count their arrivals under a mutex and wait
on a condition. The last one of a round resets the count and wakes the others. A caller does not
look at the count again when it wakes up.
-/

namespace Acdc

open Barrier

/-- `src/arch.h:48–54`. The mutex is known by its holder, the condition by the threads that
wait. -/
structure OsxBarrier where
  mutex : Option Nat
  count : Int32
  tripCount : Int32
  deriving DecidableEq, Repr

/-- Control points of a thread that calls `pthread_barrier_wait` again and again. -/
inductive OsxPc where
  | outside
  | locking
  | locked
  | waiting
  | woken
  | unlocking (result : Int32)
  deriving DecidableEq, Repr

/-- A thread: the arrivals that it has counted, and what its calls have returned. -/
structure OsxThread where
  pc : OsxPc
  arrived : Nat
  results : List Int32
  deriving DecidableEq, Repr

/-- The barrier and its threads. -/
structure OsxState where
  barrier : OsxBarrier
  threads : Nat → OsxThread

/-- `src/osx-barrier.c:11–31`, where the mutex and the condition can be initialised. -/
def pthreadBarrierInit (count : UInt32) : Option OsxBarrier :=
  if count = 0 then none else some ⟨none, 0, count.toInt32⟩

namespace OsxState

/-- No thread has called yet. -/
def start (b : OsxBarrier) : OsxState := ⟨b, fun _ ↦ ⟨.outside, 0, []⟩⟩

/-- Replacement of one thread. -/
def put (s : OsxState) (i : Nat) (th : OsxThread) : OsxState :=
  { s with threads := Function.update s.threads i th }

/-- `pthread_cond_broadcast`. -/
def broadcast (threads : Nat → OsxThread) : Nat → OsxThread := fun j ↦
  if (threads j).pc = .waiting then { threads j with pc := .woken } else threads j

/-- The next step of a call; `src/osx-barrier.c:40–57`. `pthread_cond_wait` releases the mutex
and takes it again before it returns. -/
def step (i : Nat) (s : OsxState) : Option OsxState :=
  let th := s.threads i
  let b := s.barrier
  match th.pc with
  | .outside => some (s.put i { th with pc := .locking })
  | .locking =>
    if b.mutex = none then
      some { s.put i { th with pc := .locked } with barrier := { b with mutex := some i } }
    else none
  | .locked =>
    let count := b.count + 1
    if b.tripCount ≤ count then
      some {
        barrier := { b with count := 0 }
        threads := Function.update (broadcast s.threads) i
          { th with pc := .unlocking 1, arrived := th.arrived + 1 } }
    else
      some { s.put i { th with pc := .waiting, arrived := th.arrived + 1 } with
        barrier := { b with mutex := none, count := count } }
  | .waiting => none
  | .woken =>
    if b.mutex = none then
      some { s.put i { th with pc := .unlocking 0 } with barrier := { b with mutex := some i } }
    else none
  | .unlocking result =>
    some { s.put i { th with pc := .outside, results := th.results ++ [result] } with
      barrier := { b with mutex := none } }

/-- A step of one of `n` threads. POSIX allows a thread that waits on a condition to wake up
without a broadcast, so `spurious` says whether that happens. -/
inductive Step (spurious : Prop) (n : Nat) (s : OsxState) : OsxState → Prop where
  | call (i : Nat) (hi : i < n) (t : OsxState) (h : s.step i = some t) : Step spurious n s t
  | wake (hs : spurious) (i : Nat) (hi : i < n) (hw : (s.threads i).pc = .waiting) :
      Step spurious n s (s.put i { s.threads i with pc := .woken })

/-- States of the runs of a barrier for its `n` threads. -/
inductive Reachable (spurious : Prop) (n : Nat) : OsxState → Prop where
  | start (b : OsxBarrier) (hb : pthreadBarrierInit (UInt32.ofNat n) = some b)
      (hn : n < 2 ^ 31) : Reachable spurious n (.start b)
  | step {s t : OsxState} (hs : Reachable spurious n s) (h : Step spurious n s t) :
      Reachable spurious n t

end OsxState

namespace OsxState

variable {spurious : Prop} {n a i j : Nat} {s t : OsxState}

/-- What a step of a thread can do. -/
inductive Move (i : Nat) (s : OsxState) : OsxState → Prop where
  | call (hpc : (s.threads i).pc = .outside) :
      Move i s (s.put i { s.threads i with pc := .locking })
  | lock (hpc : (s.threads i).pc = .locking) (hm : s.barrier.mutex = none) :
      Move i s { s.put i { s.threads i with pc := .locked } with
        barrier := { s.barrier with mutex := some i } }
  | trip (hpc : (s.threads i).pc = .locked) (hc : s.barrier.tripCount ≤ s.barrier.count + 1) :
      Move i s {
        barrier := { s.barrier with count := 0 }
        threads := Function.update (broadcast s.threads) i { s.threads i with
          pc := .unlocking 1
          arrived := (s.threads i).arrived + 1 } }
  | wait (hpc : (s.threads i).pc = .locked) (hc : ¬ s.barrier.tripCount ≤ s.barrier.count + 1) :
      Move i s { s.put i { s.threads i with
          pc := .waiting
          arrived := (s.threads i).arrived + 1 } with
        barrier := { s.barrier with mutex := none, count := s.barrier.count + 1 } }
  | relock (hpc : (s.threads i).pc = .woken) (hm : s.barrier.mutex = none) :
      Move i s { s.put i { s.threads i with pc := .unlocking 0 } with
        barrier := { s.barrier with mutex := some i } }
  | unlock (result : Int32) (hpc : (s.threads i).pc = .unlocking result) :
      Move i s { s.put i { s.threads i with
          pc := .outside
          results := (s.threads i).results ++ [result] } with
        barrier := { s.barrier with mutex := none } }

theorem step_move (h : s.step i = some t) : Move i s t := by
  unfold step at h
  dsimp only at h
  split at h
  · next hpc =>
    cases h
    exact .call hpc
  · next hpc =>
    split at h
    · next hm =>
      cases h
      exact .lock hpc hm
    · cases h
  · next hpc =>
    split at h
    · next hc =>
      cases h
      exact .trip hpc hc
    · next hc =>
      cases h
      exact .wait hpc hc
  · cases h
  · next hpc =>
    split at h
    · next hm =>
      cases h
      exact .relock hpc hm
    · cases h
  · next result hpc =>
    cases h
    exact .unlock result hpc

end OsxState

/-! ### The invariant -/

/-- Control points of a call that has been counted. -/
def OsxPc.inside : OsxPc → Bool
  | .waiting | .woken | .unlocking _ => true
  | _ => false

/-- Control points at which the mutex is held. -/
def OsxPc.holds : OsxPc → Bool
  | .locked | .unlocking _ => true
  | _ => false

/-- The calls of a thread that are the last ones of their rounds. -/
def OsxThread.serials (th : OsxThread) : Nat :=
  th.results.count 1 + if th.pc = .unlocking 1 then 1 else 0

/-- A thread of a barrier with `a` arrivals. It waits in the first incomplete round only. -/
structure OsxThread.Inv (n a : Nat) (th : OsxThread) : Prop where
  outside : th.pc.inside = false → th.results.length = th.arrived
  inside : th.pc.inside = true → th.results.length + 1 = th.arrived
  waiting : th.pc = .waiting → th.arrived = a / n + 1
  complete : th.pc ≠ .waiting → th.arrived * n ≤ a

namespace OsxState

/-- The count is that of the arrivals in the first incomplete round, the mutex has one holder, and
each complete round has one last call. -/
structure Inv (n a : Nat) (s : OsxState) : Prop where
  trip : s.barrier.tripCount.toInt = n
  count : s.barrier.count.toInt = (a % n : Nat)
  rounds : Rounds n (fun i ↦ (s.threads i).arrived) a
  threads : ∀ i < n, (s.threads i).Inv n a
  holder : ∀ i < n, (s.threads i).pc.holds = true ↔ s.barrier.mutex = some i
  owner : ∀ i, s.barrier.mutex = some i → i < n
  serial : ∑ i ∈ Finset.range n, (s.threads i).serials = a / n

variable {spurious : Prop} {n a i j : Nat} {s t : OsxState}

/-! A broadcast wakes threads, and does nothing else to them. -/

theorem arrived_broadcast (threads : Nat → OsxThread) (j : Nat) :
    (broadcast threads j).arrived = (threads j).arrived := by
  unfold broadcast
  split <;> rfl

theorem holds_broadcast (threads : Nat → OsxThread) (j : Nat) :
    (broadcast threads j).pc.holds = (threads j).pc.holds := by
  unfold broadcast
  split
  · next hw =>
    rw [hw]
    rfl
  · rfl

theorem serials_broadcast (threads : Nat → OsxThread) (j : Nat) :
    (broadcast threads j).serials = (threads j).serials := by
  unfold broadcast
  split
  · next hw => simp [OsxThread.serials, hw]
  · rfl

/-- A round that is complete lets its threads go. -/
theorem inv_broadcast {threads : Nat → OsxThread}
    (h : (threads j).Inv n a) (hc : (a / n + 1) * n ≤ a + 1) :
    (OsxState.broadcast threads j).Inv n (a + 1) := by
  obtain ⟨ho, hin, hw, hcomp⟩ := h
  unfold OsxState.broadcast
  split
  · next hpc =>
    refine ⟨nofun, fun _ ↦ hin (by rw [hpc]; rfl), nofun, fun _ ↦ ?_⟩
    show (threads j).arrived * n ≤ a + 1
    rwa [hw hpc]
  · next hpc =>
    exact ⟨ho, hin, fun hp ↦ absurd hp hpc, fun hp ↦ (hcomp hp).trans (Nat.le_succ a)⟩

private theorem sum_succ {f f' : Nat → OsxThread} (hi : i < n)
    (h : (f' i).serials = (f i).serials + 1)
    (hne : ∀ j, j ≠ i → (f' j).serials = (f j).serials) :
    ∑ j ∈ Finset.range n, (f' j).serials = ∑ j ∈ Finset.range n, (f j).serials + 1 := by
  have hm := Finset.mem_range.mpr hi
  rw [← Finset.add_sum_erase _ _ hm, ← Finset.add_sum_erase _ (fun j ↦ (f j).serials) hm, h,
    Finset.sum_congr rfl fun j hj ↦ hne j (Finset.ne_of_mem_erase hj)]
  omega

private theorem Inv.put (h : Inv n a s) (hi : i < n) {th : OsxThread} {m : Option Nat}
    (ha : th.arrived = (s.threads i).arrived) (hth : th.Inv n a)
    (hs : th.serials = (s.threads i).serials) (hm : th.pc.holds = true ↔ m = some i)
    (hm' : ∀ j, j ≠ i → (m = some j ↔ s.barrier.mutex = some j)) :
    Inv n a { s.put i th with barrier := { s.barrier with mutex := m } } where
  trip := h.trip
  count := h.count
  rounds := by
    have he : (fun j ↦ (Function.update s.threads i th j).arrived) =
        fun j ↦ (s.threads j).arrived := by
      ext1 j
      by_cases hj : j = i
      · subst hj
        rw [Function.update_self, ha]
      · rw [Function.update_of_ne hj]
    exact he ▸ h.rounds
  threads j hj := by
    by_cases hji : j = i
    · subst hji
      simpa only [OsxState.put, Function.update_self] using hth
    · simpa only [OsxState.put, Function.update_of_ne hji] using h.threads j hj
  holder j hj := by
    by_cases hji : j = i
    · subst hji
      simpa only [OsxState.put, Function.update_self] using hm
    · simp only [OsxState.put, Function.update_of_ne hji, hm' j hji]
      exact h.holder j hj
  owner j hj := by
    by_cases hji : j = i
    · exact hji ▸ hi
    · exact h.owner j ((hm' j hji).mp hj)
  serial := by
    rw [← h.serial]
    apply Finset.sum_congr rfl
    intro j _
    by_cases hji : j = i
    · subst hji
      simp only [OsxState.put, Function.update_self, hs]
    · simp only [OsxState.put, Function.update_of_ne hji]

private theorem Inv.enter (h : Inv n a s) (hi : i < n) (hpc : (s.threads i).pc = .locked) :
    a / n = (s.threads i).arrived ∧
      Rounds n (Function.update (fun j ↦ (s.threads j).arrived) i
        ((s.threads i).arrived + 1)) (a + 1) := by
  apply h.rounds.enter hi
  apply (h.threads i hi).complete
  rw [hpc]
  exact nofun

private theorem Inv.toInt_count (h : Inv n a s) (hn : 0 < n) (hlt : n < 2 ^ 31) :
    (s.barrier.count + 1).toInt = (a % n + 1 : Nat) ∧
      (s.barrier.tripCount ≤ s.barrier.count + 1 ↔ a % n + 1 = n) := by
  have hmod := Nat.mod_lt a hn
  have hone : (1 : Int32).toInt = 1 := rfl
  have hadd : (s.barrier.count + 1).toInt = (a % n + 1 : Nat) := by
    rw [Int32.toInt_add, h.count, hone]
    exact Int.bmod_eq_of_le (by omega) (by omega)
  refine ⟨hadd, ?_⟩
  rw [Int32.le_iff_toInt_le, hadd, h.trip]
  omega

private theorem div_succ_of_last (hn : 0 < n) (h : a % n + 1 = n) :
    (a + 1) / n = a / n + 1 ∧ (a + 1) % n = 0 := by
  have ha := Nat.div_add_mod a n
  have he : a + 1 = n * (a / n + 1) := by
    rw [Nat.mul_succ]
    omega
  rw [he]
  exact ⟨Nat.mul_div_cancel_left _ hn, Nat.mul_mod_right _ _⟩

private theorem div_succ_of_lt (h : a % n + 1 < n) :
    (a + 1) / n = a / n ∧ (a + 1) % n = a % n + 1 := by
  have ha := Nat.div_add_mod a n
  have he : a + 1 = n * (a / n) + (a % n + 1) := by omega
  constructor
  · rw [he, Nat.mul_add_div (by omega), Nat.div_eq_of_lt h, Nat.add_zero]
  · rw [he, Nat.mul_add_mod, Nat.mod_eq_of_lt h]

private theorem Inv.trip_step (h : Inv n a s) (hi : i < n) (hpc : (s.threads i).pc = .locked)
    (hc : s.barrier.tripCount ≤ s.barrier.count + 1) (hlt : n < 2 ^ 31) :
    Inv n (a + 1) {
      barrier := { s.barrier with count := 0 }
      threads := Function.update (broadcast s.threads) i { s.threads i with
        pc := .unlocking 1
        arrived := (s.threads i).arrived + 1 } } := by
  obtain ⟨hround, hrounds⟩ := h.enter hi hpc
  have hlast := (h.toInt_count (by omega) hlt).2.mp hc
  obtain ⟨hdiv, hmod⟩ := div_succ_of_last (by omega) hlast
  have hcomplete : (a / n + 1) * n ≤ a + 1 := by
    rw [← hdiv]
    exact Nat.div_mul_le_self _ _
  have hT := h.threads i hi
  constructor
  · exact h.trip
  · rw [hmod]
    rfl
  · have he : (fun j ↦ (Function.update (broadcast s.threads) i { s.threads i with
        pc := .unlocking 1
        arrived := (s.threads i).arrived + 1 } j).arrived) =
        Function.update (fun j ↦ (s.threads j).arrived) i ((s.threads i).arrived + 1) := by
      ext1 j
      by_cases hj : j = i
      · subst hj
        simp only [Function.update_self]
      · simp only [Function.update_of_ne hj, arrived_broadcast]
    exact he ▸ hrounds
  · intro j hj
    by_cases hji : j = i
    · subst hji
      simp only [Function.update_self]
      refine ⟨nofun, fun _ ↦ ?_, nofun, fun _ ↦ ?_⟩
      · rw [← hT.outside (by rw [hpc]; rfl)]
      · rwa [← hround]
    · simp only [Function.update_of_ne hji]
      exact inv_broadcast (h.threads j hj) hcomplete
  · intro j hj
    by_cases hji : j = i
    · subst hji
      have hm := (h.holder j hj).mp (by rw [hpc]; rfl)
      simp only [Function.update_self]
      exact iff_of_true rfl hm
    · simp only [Function.update_of_ne hji, holds_broadcast]
      exact h.holder j hj
  · exact h.owner
  · rw [hdiv, ← h.serial]
    apply sum_succ hi
    · simp [OsxThread.serials, hpc]
    · intro j hji
      simp only [Function.update_of_ne hji, serials_broadcast]

private theorem Inv.wait_step (h : Inv n a s) (hi : i < n) (hpc : (s.threads i).pc = .locked)
    (hc : ¬ s.barrier.tripCount ≤ s.barrier.count + 1) (hlt : n < 2 ^ 31) :
    Inv n (a + 1) { s.put i { s.threads i with
        pc := .waiting
        arrived := (s.threads i).arrived + 1 } with
      barrier := { s.barrier with mutex := none, count := s.barrier.count + 1 } } := by
  obtain ⟨hround, hrounds⟩ := h.enter hi hpc
  have hn : 0 < n := by omega
  obtain ⟨hcount, hiff⟩ := h.toInt_count hn hlt
  have hlt' := Nat.mod_lt a hn
  have hne := mt hiff.mpr hc
  obtain ⟨hdiv, hmod⟩ := div_succ_of_lt (show a % n + 1 < n by omega)
  have hT := h.threads i hi
  have hm := (h.holder i hi).mp (by rw [hpc]; rfl)
  constructor
  · exact h.trip
  · rw [hmod]
    exact hcount
  · have he : (fun j ↦ (Function.update s.threads i { s.threads i with
        pc := .waiting
        arrived := (s.threads i).arrived + 1 } j).arrived) =
        Function.update (fun j ↦ (s.threads j).arrived) i ((s.threads i).arrived + 1) := by
      ext1 j
      by_cases hj : j = i
      · subst hj
        simp only [Function.update_self]
      · simp only [Function.update_of_ne hj]
    exact he ▸ hrounds
  · intro j hj
    by_cases hji : j = i
    · subst hji
      simp only [OsxState.put, Function.update_self]
      refine ⟨nofun, fun _ ↦ ?_, fun _ ↦ ?_, fun hne ↦ absurd rfl hne⟩
      · rw [← hT.outside (by rw [hpc]; rfl)]
      · rw [hdiv, hround]
    · simp only [OsxState.put, Function.update_of_ne hji]
      obtain ⟨ho, hin, hw, hc⟩ := h.threads j hj
      exact ⟨ho, hin, fun hp ↦ hdiv ▸ hw hp, fun hp ↦ (hc hp).trans (Nat.le_succ a)⟩
  · intro j hj
    by_cases hji : j = i
    · subst hji
      simp only [OsxState.put, Function.update_self]
      exact iff_of_false nofun nofun
    · simp only [OsxState.put, Function.update_of_ne hji]
      refine iff_of_false (fun hh ↦ ?_) nofun
      have hmj := (h.holder j hj).mp hh
      rw [hm] at hmj
      exact hji (Option.some.inj hmj).symm
  · exact nofun
  · rw [hdiv, ← h.serial]
    apply Finset.sum_congr rfl
    intro j _
    by_cases hji : j = i
    · subst hji
      simp [OsxState.put, OsxThread.serials, hpc]
    · simp only [OsxState.put, Function.update_of_ne hji]

/-- Every step keeps the invariant. -/
theorem Inv.move (h : Inv n a s) (hi : i < n) (hlt : n < 2 ^ 31) (hm : Move i s t) :
    ∃ a', Inv n a' t := by
  have hT := h.threads i hi
  have hh := h.holder i hi
  cases hm with
  | call hpc =>
    refine ⟨a, h.put (m := s.barrier.mutex) hi rfl ?_ ?_ ?_ fun j _ ↦ .rfl⟩
    · exact ⟨fun _ ↦ hT.outside (by rw [hpc]; rfl), nofun, nofun,
        fun _ ↦ hT.complete (by rw [hpc]; exact nofun)⟩
    · simp [OsxThread.serials, hpc]
    · rw [← hh, hpc]
      exact Iff.rfl
  | lock hpc hm =>
    refine ⟨a, h.put hi rfl ?_ ?_ (iff_of_true rfl rfl) ?_⟩
    · exact ⟨fun _ ↦ hT.outside (by rw [hpc]; rfl), nofun, nofun,
        fun _ ↦ hT.complete (by rw [hpc]; exact nofun)⟩
    · simp [OsxThread.serials, hpc]
    · intro j hj
      rw [hm]
      exact iff_of_false (fun he ↦ hj (Option.some.inj he).symm) nofun
  | trip hpc hc => exact ⟨a + 1, h.trip_step hi hpc hc hlt⟩
  | wait hpc hc => exact ⟨a + 1, h.wait_step hi hpc hc hlt⟩
  | relock hpc hm =>
    refine ⟨a, h.put hi rfl ?_ ?_ (iff_of_true rfl rfl) ?_⟩
    · exact ⟨nofun, fun _ ↦ hT.inside (by rw [hpc]; rfl), nofun,
        fun _ ↦ hT.complete (by rw [hpc]; exact nofun)⟩
    · simp [OsxThread.serials, hpc]
    · intro j hj
      rw [hm]
      exact iff_of_false (fun he ↦ hj (Option.some.inj he).symm) nofun
  | unlock result hpc =>
    have hm := hh.mp (by rw [hpc]; rfl)
    refine ⟨a, h.put hi rfl ?_ ?_ (iff_of_false nofun nofun) ?_⟩
    · refine ⟨fun _ ↦ ?_, nofun, nofun, fun _ ↦ hT.complete (by rw [hpc]; exact nofun)⟩
      simpa using hT.inside (by rw [hpc]; rfl)
    · by_cases hr : result = 1
      · simp [OsxThread.serials, hpc, hr]
      · simp [OsxThread.serials, hpc, hr]
    · intro j hj
      rw [hm]
      exact iff_of_false nofun fun he ↦ hj (Option.some.inj he).symm

/-- A single thread never waits. -/
theorem Inv.not_waiting (h : Inv 1 a s) : (s.threads 0).pc ≠ .waiting := by
  intro hw
  have ha := (h.threads 0 Nat.one_pos).waiting hw
  have ht := h.rounds.total
  simp only [Finset.sum_range_one] at ht
  omega

theorem Inv.start {b : OsxBarrier} (hb : pthreadBarrierInit (UInt32.ofNat n) = some b)
    (hlt : n < 2 ^ 31) : Inv n 0 (.start b) := by
  unfold pthreadBarrierInit at hb
  split at hb
  · cases hb
  · cases hb
    constructor
    · exact Int32.toInt_ofNat_of_lt hlt
    · rw [Nat.zero_mod]
      rfl
    · exact rounds_zero n
    · intro i _
      exact ⟨fun _ ↦ rfl, nofun, nofun, fun _ ↦ Nat.le_of_eq (Nat.zero_mul n)⟩
    · intro i _
      exact iff_of_false nofun nofun
    · exact nofun
    · rw [Nat.zero_div]
      exact Finset.sum_const_zero

/-- The invariant holds in every run in which no thread wakes up by itself, or in which there is
only one. -/
theorem Reachable.inv (hs : spurious → n = 1) (h : Reachable spurious n s) :
    n < 2 ^ 31 ∧ ∃ a, Inv n a s := by
  induction h with
  | start b hb hlt => exact ⟨hlt, 0, .start hb hlt⟩
  | step _ hstep ih =>
    obtain ⟨hlt, a, hInv⟩ := ih
    refine ⟨hlt, ?_⟩
    cases hstep with
    | call i hi _ h => exact hInv.move hi hlt (step_move h)
    | wake hsp i hi hw =>
      obtain rfl := hs hsp
      obtain rfl : i = 0 := by omega
      exact absurd hw hInv.not_waiting

end OsxState

/-! ### Rounds -/

open OsxState

/-- What a barrier promises to its `n` threads. -/
structure OsxSafe (n : Nat) (s : OsxState) : Prop where
  exclusive : ∀ i < n, ∀ j < n,
    (s.threads i).pc.holds = true → (s.threads j).pc.holds = true → i = j
  separated : ∀ i < n, ∀ j < n, (s.threads i).results.length ≤ (s.threads j).arrived
  serial : ∑ i ∈ Finset.range n, (s.threads i).serials =
    (∑ i ∈ Finset.range n, (s.threads i).arrived) / n
  awake : ∀ i < n, (s.threads i).pc = .waiting →
    ∃ j < n, (s.threads j).arrived < (s.threads i).arrived
  progress : ∃ i < n, (s.step i).isSome

namespace OsxState

variable {spurious : Prop} {n a i j : Nat} {s t : OsxState}

private theorem Inv.awake (h : Inv n a s) (hi : i < n) (hw : (s.threads i).pc = .waiting) :
    ∃ j < n, (s.threads j).arrived < (s.threads i).arrived := by
  rw [(h.threads i hi).waiting hw]
  by_contra hno
  have hc : (a / n + 1) * n ≤ a := by
    apply h.rounds.complete_iff.mpr
    intro j hj
    apply Nat.lt_of_not_le
    intro hle
    exact hno ⟨j, hj, Nat.lt_succ_of_le hle⟩
  have := Nat.lt_mul_div_succ a (show 0 < n by omega)
  rw [Nat.mul_comm] at this
  omega

private theorem Inv.progress (h : Inv n a s) (hn : 0 < n) : ∃ i < n, (s.step i).isSome := by
  cases hm : s.barrier.mutex with
  | some i =>
    have hi := h.owner i hm
    have hh := (h.holder i hi).mpr hm
    refine ⟨i, hi, ?_⟩
    cases hpc : (s.threads i).pc with
    | locked =>
      simp only [step, hpc]
      split <;> rfl
    | unlocking r =>
      simp only [step, hpc]
      rfl
    | outside | locking | waiting | woken =>
      rw [hpc] at hh
      cases hh
  | none =>
    by_cases hw : ∀ i < n, (s.threads i).pc = .waiting
    · -- all of them wait for one that waits, too
      obtain ⟨j, hj, hlt⟩ := h.awake hn (hw 0 hn)
      have h0 := (h.threads 0 hn).waiting (hw 0 hn)
      have hj' := (h.threads j hj).waiting (hw j hj)
      omega
    · simp only [not_forall] at hw
      obtain ⟨i, hi, hw⟩ := hw
      have hh := (not_congr (h.holder i hi)).mpr (by rw [hm]; exact nofun)
      refine ⟨i, hi, ?_⟩
      cases hpc : (s.threads i).pc with
      | outside | locking | woken =>
        simp only [step, hpc, hm]
        rfl
      | waiting => exact absurd hpc hw
      | locked | unlocking r =>
        rw [hpc] at hh
        exact absurd rfl hh

/-- The invariant gives what the barrier promises. -/
theorem Inv.safe (h : Inv n a s) (hn : 0 < n) : OsxSafe n s where
  exclusive i hi j hj hhi hhj := by
    have hm := (h.holder i hi).mp hhi
    rw [(h.holder j hj).mp hhj] at hm
    exact (Option.some.inj hm).symm
  separated i hi j hj := by
    have hT := h.threads i hi
    cases hin : (s.threads i).pc.inside with
    | false =>
      have hne : (s.threads i).pc ≠ .waiting := by
        intro hw
        rw [hw] at hin
        cases hin
      rw [hT.outside hin]
      exact h.rounds.entered_le_of_complete hj (hT.complete hne)
    | true =>
      have := hT.inside hin
      have := h.rounds.entered_le hi hj
      omega
  serial := by
    rw [h.serial, h.rounds.total]
  awake _ hi hw := h.awake hi hw
  progress := h.progress hn

-- The first thread in a call that the others have not made.
private def lone (b : OsxBarrier) (th : OsxThread) : OsxState :=
  ⟨b, Function.update (fun _ ↦ ⟨.outside, 0, []⟩) 0 th⟩

private theorem lone_step {b : OsxBarrier} {th : OsxThread} (b' : OsxBarrier) (th' : OsxThread)
    (hn : 0 < n) (h : Reachable spurious n (lone b th))
    (hs : (lone b th).step 0 = some (lone b' th')) : Reachable spurious n (lone b' th') :=
  h.step (.call 0 hn _ hs)

private theorem exists_early_return (hs : spurious) (hn : 2 ≤ n) (hlt : n < 2 ^ 31) :
    ∃ s, Reachable spurious n s ∧ ¬ OsxSafe n s := by
  have h0 : UInt32.ofNat n ≠ 0 := by
    intro h
    have ht := congrArg UInt32.toNat h
    rw [UInt32.toNat_ofNat_of_lt' (show n < 2 ^ 32 by omega)] at ht
    exact absurd ht (by simp; omega)
  have hb : pthreadBarrierInit (UInt32.ofNat n) = some ⟨none, 0, (UInt32.ofNat n).toInt32⟩ :=
    if_neg h0
  have htrip : (UInt32.ofNat n).toInt32.toInt = n := Int32.toInt_ofNat_of_lt hlt
  have hc : ¬ (UInt32.ofNat n).toInt32 ≤ (0 : Int32) + 1 := by
    rw [Int32.le_iff_toInt_le, htrip, show ((0 : Int32) + 1).toInt = 1 from rfl]
    omega
  generalize (UInt32.ofNat n).toInt32 = k at hb hc
  have h1 : Reachable spurious n (lone ⟨none, 0, k⟩ ⟨.outside, 0, []⟩) := by
    have h : Reachable spurious n (start _) := .start _ hb hlt
    rwa [lone, Function.update_eq_self]
  have h2 := lone_step ⟨none, 0, k⟩ ⟨.locking, 0, []⟩ (by omega) h1 (by
    simp [lone, step, put])
  have h3 := lone_step ⟨some 0, 0, k⟩ ⟨.locked, 0, []⟩ (by omega) h2 (by
    simp [lone, step, put])
  have h4 := lone_step ⟨none, 0 + 1, k⟩ ⟨.waiting, 1, []⟩ (by omega) h3 (by
    simp only [lone, step, put, Function.update_self, if_neg hc, Function.update_idem])
  have h5 : Reachable spurious n (lone ⟨none, 0 + 1, k⟩ ⟨.woken, 1, []⟩) := by
    have h := h4.step (.wake hs 0 (by omega) rfl)
    simpa only [lone, put, Function.update_self, Function.update_idem] using h
  have h6 := lone_step ⟨some 0, 0 + 1, k⟩ ⟨.unlocking 0, 1, []⟩ (by omega) h5 (by
    simp [lone, step, put])
  have h7 := lone_step ⟨none, 0 + 1, k⟩ ⟨.outside, 1, [0]⟩ (by omega) h6 (by
    simp [lone, step, put])
  refine ⟨_, h7, fun hsafe ↦ ?_⟩
  have := hsafe.separated 0 (by omega) 1 (by omega)
  simp [lone] at this

end OsxState

/-- The barrier for macOS keeps its promises exactly if no thread that waits wakes up by itself,
which POSIX does not promise, or if it has one thread. -/
theorem osxBarrier_safe_iff {spurious : Prop} {n : Nat} (hn : 0 < n) (hlt : n < 2 ^ 31) :
    (∀ s, OsxState.Reachable spurious n s → OsxSafe n s) ↔ (spurious → n = 1) := by
  constructor
  · intro h hs
    by_contra hne
    obtain ⟨s, hr, hno⟩ := exists_early_return hs (by omega) hlt
    exact hno (h s hr)
  · intro hs s hr
    obtain ⟨-, a, hInv⟩ := hr.inv hs
    exact hInv.safe hn

/-- Two threads, without spurious wake-ups and with them. -/
theorem osxBarrier_safe_two : (∀ s, OsxState.Reachable False 2 s → OsxSafe 2 s) ∧
    ¬∀ s, OsxState.Reachable True 2 s → OsxSafe 2 s := by
  constructor
  · exact (osxBarrier_safe_iff (by decide) (by decide)).mpr False.elim
  · intro h
    have hone := (osxBarrier_safe_iff (by decide) (by decide)).mp h trivial
    omega

/-! ### Refinement -/

/-- The round in which a thread of the program waits. -/
def Pc.round : Pc → Option Nat
  | .waiting round => some round
  | _ => none

/-- What the threads of the program tell of their barrier. -/
def Sys.cyclic {σ : Type} (s : Sys σ) : Cyclic := ⟨s.arrivals, fun i ↦ (s.threads i).pc.round⟩

/-- The round in which a call waits for the others. -/
def OsxThread.round (th : OsxThread) : Option Nat :=
  if th.pc.inside then some (th.arrived - 1) else none

/-- What the calls tell of the barrier for macOS. -/
def OsxState.cyclic (n : Nat) (s : OsxState) : Cyclic :=
  ⟨∑ i ∈ Finset.range n, (s.threads i).arrived, fun i ↦ (s.threads i).round⟩

private theorem round_enterAccess (g : GOptions) : (enterAccess g).round = none := by
  obtain h | h := enterAccess_cases g <;>
  · rw [h]
    rfl

private theorem Move.cyclic_eq {σ : Type} {g : GOptions} {R : Generator σ} {i : Nat}
    {s s' : Sys σ} (h : Move g R i s s') (ha : (s.threads i).pc ≠ .arriving)
    (hw : ∀ round, (s.threads i).pc ≠ .waiting round) : s'.cyclic = s.cyclic := by
  have hr : ∀ j, (s'.threads j).pc.round = (s.threads j).pc.round := by
    intro j
    by_cases hj : j = i
    · subst hj
      cases h with
      | arrive hpc => exact absurd hpc ha
      | depart round hpc => exact absurd hpc (hw round)
      | insert c node cache k rand hpc | fetch c hpc =>
        simpa [hpc, Pc.round] using round_enterAccess g
      | unreference node rest hpc =>
        simp only [Sys.emit_threads, Sys.put_threads, Function.update_self, hpc]
        split <;> rfl
      | endRemove pc hpc hn he =>
        simp only [Sys.put_threads, Function.update_self, hpc]
        obtain rfl | rfl := he <;> rfl
      | _ => simp [Pc.round, *]
    · rw [h.threads_of_ne hj]
  have harr : s'.arrivals = s.arrivals := by
    cases h with
    | arrive hpc => exact absurd hpc ha
    | _ => rfl
  simp only [Sys.cyclic, harr, hr]

theorem waits_put {σ : Type} (s : Sys σ) (i : Nat) (th : Thread σ) :
    (s.put i th).cyclic.waits = Function.update s.cyclic.waits i th.pc.round :=
  Function.comp_update (fun th : Thread σ ↦ th.pc.round) s.threads i th

/-- The threads of the program use a cyclic barrier. -/
theorem refines_of_step {σ : Type} {g : GOptions} {R : Generator σ} {i : Nat} {s s' : Sys σ}
    (hi : i < g.threads) (h : step g R i s = .ok s') :
    Refines Sys.cyclic g.threads s s' := by
  have hm := step_move h
  have hm' := hm
  cases hm with
  | arrive hpc =>
    left
    have hw : s.cyclic.waits i = none := by
      simp only [Sys.cyclic, hpc]
      rfl
    exact Cyclic.step_of_arrive hi hw rfl (waits_put s i _)
  | depart round hpc hb =>
    left
    have hw : s.cyclic.waits i = some round := by
      simp only [Sys.cyclic, hpc]
      rfl
    exact Cyclic.step_of_depart hi hw hb rfl (waits_put s i _)
  | _ => exact .inr (hm'.cyclic_eq (by simp [*]) (by simp [*]))

namespace OsxState

variable {spurious : Prop} {n i : Nat} {s t : OsxState}

theorem round_broadcast (threads : Nat → OsxThread) (j : Nat) :
    (broadcast threads j).round = (threads j).round := by
  unfold broadcast
  split
  · next hw => simp [OsxThread.round, hw, OsxPc.inside]
  · rfl

/-- What the threads tell when one of them changes. -/
theorem waits_update {threads : Nat → OsxThread} (i : Nat) (th : OsxThread) :
    (fun j ↦ (Function.update threads i th j).round) =
      Function.update (fun j ↦ (threads j).round) i th.round :=
  Function.comp_update OsxThread.round threads i th

private theorem arrivals_eq (h : ∀ j, (t.threads j).arrived = (s.threads j).arrived) :
    (cyclic n t).arrivals = (cyclic n s).arrivals := by
  simp only [cyclic, h]

private theorem cyclic_eq (ht : t.threads = Function.update s.threads i (t.threads i))
    (ha : (t.threads i).arrived = (s.threads i).arrived)
    (hr : (t.threads i).round = (s.threads i).round) : cyclic n t = cyclic n s := by
  have he : ∀ j, (t.threads j).arrived = (s.threads j).arrived ∧
      (t.threads j).round = (s.threads j).round := by
    intro j
    by_cases hj : j = i
    · subst hj
      exact ⟨ha, hr⟩
    · rw [ht, Function.update_of_ne hj]
      exact ⟨rfl, rfl⟩
  simp only [cyclic, he]

/-- Steps of the barrier for macOS are those of a cyclic barrier, as long as no thread wakes up by
itself. -/
theorem refines (hs : spurious → n = 1) (hr : Reachable spurious n s)
    (h : Step spurious n s t) : Refines (cyclic n) n s t := by
  obtain ⟨hlt, a, hInv⟩ := hr.inv hs
  have ha : (cyclic n s).arrivals = a := hInv.rounds.total
  cases h with
  | wake hsp i hi hw =>
    obtain rfl := hs hsp
    obtain rfl : i = 0 := by omega
    exact absurd hw hInv.not_waiting
  | call i hi _ h =>
    have hT := hInv.threads i hi
    cases step_move h with
    | call hpc | lock hpc hm | relock hpc hm =>
      right
      apply cyclic_eq (i := i)
      · simp [put]
      · simp [put]
      · simp [put, OsxThread.round, OsxPc.inside, hpc]
    | trip hpc hc =>
      left
      have hw : (cyclic n s).waits i = none := by
        simp [cyclic, OsxThread.round, OsxPc.inside, hpc]
      apply Cyclic.step_of_arrive hi hw
      · rw [ha]
        exact (hInv.trip_step hi hpc hc hlt).rounds.total
      · rw [ha, (hInv.enter hi hpc).1]
        simp only [cyclic, waits_update, round_broadcast]
        rfl
    | wait hpc hc =>
      left
      have hw : (cyclic n s).waits i = none := by
        simp [cyclic, OsxThread.round, OsxPc.inside, hpc]
      apply Cyclic.step_of_arrive hi hw
      · rw [ha]
        exact (hInv.wait_step hi hpc hc hlt).rounds.total
      · rw [ha, (hInv.enter hi hpc).1]
        exact waits_update i _
    | unlock result hpc =>
      left
      have hw : (cyclic n s).waits i = some ((s.threads i).arrived - 1) := by
        simp [cyclic, OsxThread.round, OsxPc.inside, hpc]
      have hin := hT.inside (by rw [hpc]; rfl)
      have hc := hT.complete (by rw [hpc]; exact nofun)
      apply Cyclic.step_of_depart hi hw
      · rwa [ha, Nat.sub_add_cancel (by omega)]
      · apply arrivals_eq
        intro j
        by_cases hj : j = i
        · subst hj
          simp [put]
        · simp [put, Function.update_of_ne hj]
      · exact waits_update i _

end OsxState

/-- The threads of the program and the calls of the barrier for macOS make the steps of one cyclic
barrier: in any interleaving the implementation lets a thread go only when the program's barrier
does. -/
theorem barriers_refine :
    (∀ {σ : Type} {g : GOptions} {R : Generator σ} {i : Nat} {s s' : Sys σ}, i < g.threads →
      step g R i s = .ok s' → Refines Sys.cyclic g.threads s s') ∧
    ∀ {spurious : Prop} {n : Nat} {s t : OsxState}, (spurious → n = 1) →
      OsxState.Reachable spurious n s → OsxState.Step spurious n s t →
        Refines (OsxState.cyclic n) n s t :=
  ⟨refines_of_step, OsxState.refines⟩

/-- The first arrival of two threads, in the program and at the barrier for macOS. -/
theorem barriers_refine_two :
    (∃ s, step (smallOptions 2 1 0) (schrage (smallOptions 2 1 0)) 0
        (runAcdc (smallOptions 2 1 0) (schrage (smallOptions 2 1 0))) = .ok s ∧
      Refines Sys.cyclic 2
        (runAcdc (smallOptions 2 1 0) (schrage (smallOptions 2 1 0))) s) ∧
    ∃ b t, pthreadBarrierInit 2 = some b ∧ (OsxState.start b).step 0 = some t ∧
      Refines (OsxState.cyclic 2) 2 (.start b) t :=
  ⟨⟨_, rfl, barriers_refine.1 (g := smallOptions 2 1 0)
      (R := schrage (smallOptions 2 1 0)) (i := 0) (by decide) rfl⟩,
    ⟨_, _, rfl, rfl, barriers_refine.2 False.elim (.start _ rfl (by decide))
      (.call 0 (by decide) _ rfl)⟩⟩

end Acdc
