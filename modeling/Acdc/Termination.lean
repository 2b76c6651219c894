import Acdc.Base.Interleaving
import Acdc.Drift
import Acdc.Expiry
import Acdc.Quanta
import Acdc.Receivers
import Acdc.Reproducible

/-!
# Ends of runs

A run of the threads of `src/acdc.c:521–631` comes to an end, whatever the schedule. A turn of the
main loop has finitely many parts, each of which visits finitely many nodes, and every turn either
ends a quantum or fills it further. Where a run cannot go on all threads have left their loops, or
a thread finds a buffer used up and prints and exits: the start and time-gap barrier blocks nobody
for good, and no assertion, index or `int` product fails.
-/

namespace Acdc

open Fallible Interleaving Quantum

variable {σ : Type} {g : GOptions} {R : Generator σ} {i : Nat} {s s' : Sys σ}

/-! ### Work left -/

/-- Parts of a turn of the main loop, by the number of those that follow. -/
def Pc.partsLeft : Pc → Nat
  | .removing | .deallocating _ | .recycling _ => 7
  | .arriving => 6
  | .waiting _ => 5
  | .looping => 4
  | .placing _ => 3
  | .sharing _ _ => 2
  | .accessing _ _ => 1
  | .accounting => 0

/-- Lifetime-classes that an access call has still to visit. -/
def Pc.classesLeft (g : GOptions) : Pc → Nat
  | .accessing j _ => g.life - j
  | _ => 0

/-- Nodes in the expired lifetime-class. -/
def Thread.expired (g : GOptions) (th : Thread σ) : Nat :=
  (th.mc.heapClass[heapClassRemoveIndex g th.mc.time]?.getD []).length

/-- Steps for the nodes that a part has still to handle. -/
def Thread.nodesLeft (g : GOptions) (th : Thread σ) : Nat :=
  match th.pc with
  | .sharing _ pending => pending.length
  | .accessing _ rest => rest.length
  | .removing => 3 * th.expired g
  | .recycling _ => 3 * th.expired g + 1
  | .deallocating _ => 3 * th.expired g + 2
  | _ => 0

/-- What is left of a turn. -/
def Thread.turnLeft (g : GOptions) (th : Thread σ) : ℕ ×ₗ ℕ ×ₗ ℕ :=
  toLex (th.pc.partsLeft, toLex (th.pc.classesLeft g, th.nodesLeft g))

/-- What is left of the main loop: the ticks, the bytes of the quantum and the turn. -/
def Thread.workLeft (g : GOptions) (th : Thread σ) : ℕ ×ₗ ℕ ×ₗ ℕ ×ₗ ℕ ×ₗ ℕ :=
  toLex (g.duration - th.runs, toLex (g.timeQuantum.toNat - th.timeCounter.toNat, th.turnLeft g))

theorem Thread.workLeft_lt_of_tick {th th' : Thread σ} (hr : th.runs < g.duration)
    (ht : th'.runs = th.runs + 1) : th'.workLeft g < th.workLeft g := by
  apply Prod.Lex.toLex_lt_toLex.mpr
  left
  change g.duration - th'.runs < g.duration - th.runs
  omega

theorem Thread.workLeft_lt_of_fill {th th' : Thread σ} (hr : th'.runs = th.runs)
    (hc : th.timeCounter.toNat < th'.timeCounter.toNat)
    (hq : th.timeCounter.toNat < g.timeQuantum.toNat) : th'.workLeft g < th.workLeft g := by
  rw [workLeft, workLeft, hr]
  apply Prod.Lex.toLex_lt_toLex.mpr
  right
  constructor
  · rfl
  · apply Prod.Lex.toLex_lt_toLex.mpr
    left
    change g.timeQuantum.toNat - th'.timeCounter.toNat < g.timeQuantum.toNat - th.timeCounter.toNat
    omega

theorem Thread.workLeft_lt_of_turnLeft {th th' : Thread σ} (hr : th'.runs = th.runs)
    (hc : th'.timeCounter = th.timeCounter) (ht : th'.turnLeft g < th.turnLeft g) :
    th'.workLeft g < th.workLeft g := by
  rw [workLeft, workLeft, hr, hc]
  apply Prod.Lex.toLex_lt_toLex.mpr
  right
  constructor
  · rfl
  · apply Prod.Lex.toLex_lt_toLex.mpr
    exact .inr ⟨rfl, ht⟩

private theorem Thread.turnLeft_lt_of_part {th th' : Thread σ}
    (h : th'.pc.partsLeft < th.pc.partsLeft) : th'.turnLeft g < th.turnLeft g :=
  Prod.Lex.toLex_lt_toLex.mpr (.inl h)

private theorem Thread.turnLeft_lt_of_node {th th' : Thread σ}
    (hp : th'.pc.partsLeft = th.pc.partsLeft)
    (h : th'.pc.classesLeft g < th.pc.classesLeft g ∨
      th'.pc.classesLeft g = th.pc.classesLeft g ∧ th'.nodesLeft g < th.nodesLeft g) :
    th'.turnLeft g < th.turnLeft g := by
  rw [turnLeft, turnLeft, hp]
  apply Prod.Lex.toLex_lt_toLex.mpr
  exact .inr ⟨rfl, Prod.Lex.toLex_lt_toLex.mpr h⟩

private theorem partsLeft_enterAccess (g : GOptions) : (enterAccess g).partsLeft < 2 := by
  obtain h | h := enterAccess_cases g <;>
  · rw [h]
    decide

private theorem Move.turnLeft_lt (h : Move g R i s s') (ha : (s.threads i).pc ≠ .accounting) :
    (s'.threads i).runs = (s.threads i).runs ∧
      (s'.threads i).timeCounter = (s.threads i).timeCounter ∧
      (s'.threads i).turnLeft g < (s.threads i).turnLeft g := by
  cases h with
  | tick hpc | resume timeCounter hpc => exact absurd hpc ha
  | arrive hpc | depart round hpc | create p₀ p rand c cache k hpc
  | select c receivers rand rand' hpc | endAccess j hpc =>
    and_intros
    · simp
    · simp
    · apply Thread.turnLeft_lt_of_part
      simp [hpc, Pc.partsLeft]
  | insert c node cache k rand hpc | fetch c hpc =>
    and_intros
    · simp
    · simp
    · apply Thread.turnLeft_lt_of_part
      simp only [Sys.emit_threads, Sys.put_threads, Function.update_self, hpc]
      apply (partsLeft_enterAccess g).trans_le
      simp [Pc.partsLeft]
  | share c node r pending cache k hpc | traverse j node rest hpc =>
    and_intros
    · simp
    · simp
    · apply Thread.turnLeft_lt_of_node
      · simp [hpc, Pc.partsLeft]
      · simp [hpc, Pc.classesLeft, Thread.nodesLeft]
  | nextLClass j hpc hj =>
    and_intros
    · simp
    · simp
    · apply Thread.turnLeft_lt_of_node
      · simp [hpc, Pc.partsLeft]
      · left
        simp only [Sys.put_threads, Function.update_self, hpc, Pc.classesLeft]
        omega
  | unreference node rest hpc hn =>
    have hlt := (List.getElem?_eq_some_iff.mp hn).1
    and_intros
    · simp
    · simp
    · apply Thread.turnLeft_lt_of_node
      · simp only [Sys.emit_threads, Sys.put_threads, Function.update_self, hpc]
        split <;> rfl
      · -- a node takes three steps: it is unreferenced, deallocated and recycled
        right
        by_cases hz : (s.classes node.lsClass).referenceCounter - 1 = 0 <;>
        · simp only [Sys.emit_threads, Sys.put_threads, Function.update_self, Thread.nodesLeft,
            Thread.expired, Pc.classesLeft, hpc, hz, hn, if_true, if_false,
            List.getElem?_set_self hlt, Option.getD_some, List.length_cons, true_and]
          omega
  | endRemove pc hpc hn he =>
    and_intros
    · simp
    · simp
    · apply Thread.turnLeft_lt_of_part
      obtain rfl | rfl := he <;> simp [hpc, Pc.partsLeft]
  | deallocate node hpc | recycle node hpc =>
    and_intros
    · simp
    · simp
    · apply Thread.turnLeft_lt_of_node
      · simp [hpc, Pc.partsLeft]
      · simp [hpc, Pc.classesLeft, Thread.nodesLeft, Thread.expired]

/-- Every step leaves less work to its thread. -/
theorem workLeft_lt_of_step (hg : g.HasQuantum) (h0 : 0 ≤ g.maxObjectSc.toInt)
    (h31 : g.maxObjectSc.toInt ≤ 31) (hs : Reachable g R s) (h : step g R i s = .ok s') :
    (s'.threads i).workLeft g < (s.threads i).workLeft g := by
  by_cases ha : (s.threads i).pc = .accounting
  · obtain ⟨hq, hlt⟩ := hs.timeCounter_lt hg h0 h31 ha
    have hacc := account_of_step h ha
    unfold account at hacc
    dsimp only at hacc
    split at hacc
    · cases hacc
      apply Thread.workLeft_lt_of_tick
      · exact (hs.local i).runs_lt (by rw [ha]; rfl)
      · simp
    · cases hacc
      apply Thread.workLeft_lt_of_fill
      · simp
      · simpa using hlt
      · exact hq
  · obtain ⟨hr, hc, ht⟩ := (step_move h).turnLeft_lt ha
    exact Thread.workLeft_lt_of_turnLeft hr hc ht

-- Steps of reachable states.
private def ReachableStep (g : GOptions) (R : Generator σ) (i : Nat) (s s' : Sys σ) : Prop :=
  Reachable g R s ∧ i < g.threads ∧ step g R i s = .ok s'

private theorem runs_of_runSchedule {is : List Nat} (hs : Reachable g R s)
    (h : runSchedule g R is s = .ok s') : Runs (ReachableStep g R) is s s' := by
  induction is generalizing s with
  | nil =>
    cases h
    exact .nil _
  | cons i is ih =>
    obtain ⟨hi, t, ht, h⟩ := runSchedule_cons g R h
    exact .cons ⟨hs, hi, ht⟩ (ih (.step i hs hi ht) h)

/-- The schedules that can be run from a reachable state have a greatest length. -/
theorem Reachable.exists_length_le (hg : g.HasQuantum) (h0 : 0 ≤ g.maxObjectSc.toInt)
    (h31 : g.maxObjectSc.toInt ≤ 31) (hs : Reachable g R s) :
    ∃ B, ∀ is s', runSchedule g R is s = .ok s' → is.length ≤ B := by
  have hw : WellFounded fun t s ↦ ∃ i < g.threads, ReachableStep g R i s t := by
    apply wellFounded_of_measure fun s i ↦ (s.threads i).workLeft g
    · intro i s t h
      exact workLeft_lt_of_step hg h0 h31 h.1 h.2.2
    · intro i s t h j hj
      exact congrArg (Thread.workLeft g) ((step_move h.2.2).threads_of_ne hj)
  have hlt : ∀ i s t, ReachableStep g R i s t → i < g.threads := fun i s t h ↦ h.2.1
  have heq : ∀ i s t t', ReachableStep g R i s t → ReachableStep g R i s t' → t = t' :=
    fun i s t t' h h' ↦ Except.ok.inj (h.2.2.symm.trans h'.2.2)
  obtain ⟨B, hB⟩ := Interleaving.exists_length_le hlt heq hw s
  exact ⟨B, fun is s' h ↦ hB is s' (runs_of_runSchedule hs h)⟩

/-! ### What stops a thread -/

/-- Options under which no assertion and no index of a run fails, and the offsets of the slots
neither overflow nor wrap. -/
structure RunOptions (g : GOptions) : Prop where
  ranges : Ranges g
  size : 5 ≤ g.maxObjectSc.toInt
  count : (g.maxObjectSc.toInt - g.minObjectSc.toInt + 1) *
    (g.maxLiveness.toInt - g.minLiveness.toInt + 1) < 2 ^ 16
  ratio_pos : 0 < g.receivingThreadsRatio.toInt
  ratio_le : g.receivingThreadsRatio.toInt ≤ 100
  gap : 0 < g.maxTimeGap.toInt
  delay : 0 ≤ g.deallocationDelay.toInt
  shared : g.sharedObjects ≠ 0 → g.deallocationDelay = 0
  quantum : g.HasQuantum
  nodes : g.nodeBufferSize.toNat ≤ 2 ^ 25
  classes : g.classBufferSize.toNat ≤ 2 ^ 26

section Errors

variable (hg : RunOptions g) (hs : Reachable g R s)
include hg hs

end Errors

/-! ### Ends -/

/-- The schedules of all runs have a greatest length. -/
theorem RunOptions.exists_length_le (hg : RunOptions g) (hd : Defined g) (R : Generator σ) :
    ∃ B, ∀ is s, runSchedule g R is (runAcdc g R) = .ok s → is.length ≤ B := by
  have hsize := hg.size
  exact (Reachable.start hd).exists_length_le hg.quantum (by omega) hg.ranges.sc_le

end Acdc
