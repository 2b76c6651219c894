import Acdc.Moves

/-!
# Clocks and traversals

What holds of each thread on its own: its clock counts its completed quanta and stays
below the benchmark duration, and an access call walks the lifetime-classes of its own
heap-class.
-/

namespace Acdc

variable {σ : Type}

/-- Control points between the draw of a collection and the end of its quantum. -/
def Pc.inQuantum : Pc → Bool
  | .placing _ | .sharing _ _ | .accessing _ _ | .accounting => true
  | _ => false

/-- Control points of a call of `heap_class_remove`. -/
def Pc.inRemoval : Pc → Bool
  | .removing | .deallocating _ | .recycling _ => true
  | _ => false

/-- Access is no removal. -/
theorem inRemoval_enterAccess (g : GOptions) : (enterAccess g).inRemoval = false := by
  obtain h | h := enterAccess_cases g <;>
  · rw [h]
    rfl

/-- Number of ticks of a run; `benchmark_duration`. -/
def GOptions.duration (g : GOptions) : Nat := g.benchmarkDuration.toNatClampNeg

theorem GOptions.duration_lt (g : GOptions) : g.duration < 2 ^ 31 := by
  have := g.benchmarkDuration.toInt_lt
  simp only [duration, Int32.toNatClampNeg]
  omega

theorem GOptions.lt_duration_iff {g : GOptions} {n : Nat} :
    (n : Int) < g.benchmarkDuration.toInt ↔ n < g.duration := by
  simp only [duration, Int32.toNatClampNeg]
  omega

/-- The nodes of the first `j` lifetime-classes from the current one. -/
def visited (g : GOptions) (time : UInt32) (heapClass : HeapClass) (j : Nat) : List LSCNode :=
  (List.range j).flatMap (heapClassGetLClass g time heapClass)

theorem visited_succ (g : GOptions) (time : UInt32) (heapClass : HeapClass) (j : Nat) :
    visited g time heapClass (j + 1) =
      visited g time heapClass j ++ heapClassGetLClass g time heapClass j := by
  simp [visited, List.range_succ]

/-- The visited nodes are nodes of the heap-class. -/
theorem mem_bag_of_mem_visited {g : GOptions} {time : UInt32} {heapClass : HeapClass} {j : Nat}
    {node : LSCNode} (h : node ∈ visited g time heapClass j) :
    node ∈ Inventory.bag heapClass := by
  obtain ⟨k, -, hk⟩ := List.mem_flatMap.mp h
  unfold heapClassGetLClass at hk
  cases he : heapClass[heapClassGetIndex g time (UInt32.ofNat k)]? with
  | none => simp [he] at hk
  | some l =>
    rw [he] at hk
    exact Inventory.mem_bag.mpr ⟨l, List.mem_of_getElem? he, hk⟩

/-- What holds of a thread on its own. -/
structure Local (g : GOptions) (th : Thread σ) : Prop where
  clock : th.mc.time.toNat = th.runs
  runs_le : th.runs ≤ g.duration
  runs_lt : th.pc.inQuantum = true → th.runs < g.duration
  accessing : ∀ j rest, th.pc = .accessing j rest →
    rest <:+ visited g th.mc.time th.mc.heapClass j

variable {g : GOptions} {R : Generator σ} {i : Nat} {s s' : Sys σ}

/-- A move of one thread leaves the others. -/
theorem Move.threads_of_ne (h : Move g R i s s') {j : Nat} (hj : j ≠ i) :
    s'.threads j = s.threads j := by
  cases h <;> simp [Function.update_of_ne hj]

/-- There are no other threads. -/
theorem Reachable.threads_of_le (hs : Reachable g R s) {j : Nat} (hj : g.threads ≤ j) :
    s.threads j = (runAcdc g R).threads j := by
  induction hs with
  | start => rfl
  | step i _ hi h ih =>
    have hji : j ≠ i := (Nat.lt_of_lt_of_le hi hj).ne'
    rw [(step_move h).threads_of_ne hji, ih]

private theorem accessing_of_enterAccess {j : Nat} {rest : List LSCNode}
    (h : enterAccess g = .accessing j rest) : rest = [] := by
  obtain he | he := enterAccess_cases g
  · rw [he] at h
    cases h
  · rw [he] at h
    cases h
    rfl

/-- The clock does not wrap around before the end of the run. -/
theorem Local.toNat_time_succ {th : Thread σ} (hL : Local g th) (hq : th.pc.inQuantum = true) :
    (th.mc.time + 1).toNat = th.mc.time.toNat + 1 := by
  have hd := g.duration_lt
  have hr := hL.runs_lt hq
  have hc := hL.clock
  have ho : (1 : UInt32).toNat = 1 := rfl
  rw [UInt32.toNat_add, ho]
  exact Nat.mod_eq_of_lt (by omega)

private theorem Move.local_self (hL : Local g (s.threads i)) (h : Move g R i s s') :
    Local g (s'.threads i) := by
  obtain ⟨hc, hr, hq, ha⟩ := id hL
  cases h with
  | tick hpc =>
    have ht := hL.toNat_time_succ (by rw [hpc]; rfl)
    refine ⟨by simpa [hc] using ht, ?_, by simp [Pc.inQuantum], by simp⟩
    simpa using hq (by rw [hpc]; rfl)
  | create p₀ p rand c cache k hpc hd =>
    have hlt := GOptions.lt_duration_iff.mp hd
    exact ⟨by simpa using hc, by simpa using hr, fun _ ↦ by simpa using hlt, by simp⟩
  | insert c node cache k rand hpc =>
    have hlt := hq (by rw [hpc]; rfl)
    refine ⟨by simpa using hc, by simpa using hr, fun _ ↦ by simpa using hlt, fun j rest h ↦ ?_⟩
    have hn : rest = [] := accessing_of_enterAccess (by simpa using h)
    exact hn ▸ List.nil_suffix
  | fetch c hpc =>
    have hlt := hq (by rw [hpc]; rfl)
    refine ⟨by simpa using hc, by simpa using hr, fun _ ↦ by simpa using hlt, fun j rest h ↦ ?_⟩
    have hn : rest = [] := accessing_of_enterAccess (by simpa using h)
    exact hn ▸ List.nil_suffix
  | select c receivers rand rand' hpc | share c node r pending cache k hpc
  | endAccess j hpc =>
    have hlt := hq (by rw [hpc]; rfl)
    exact ⟨by simpa using hc, by simpa using hr, fun _ ↦ by simpa using hlt, by simp⟩
  | traverse j node rest hpc =>
    have hlt := hq (by rw [hpc]; rfl)
    refine ⟨by simpa using hc, by simpa using hr, fun _ ↦ by simpa using hlt, fun j' rest' h ↦ ?_⟩
    obtain ⟨rfl, rfl⟩ : j = j' ∧ rest = rest' := by simpa using h
    simpa using (List.suffix_cons node rest).trans (ha j _ hpc)
  | nextLClass j hpc =>
    have hlt := hq (by rw [hpc]; rfl)
    refine ⟨by simpa using hc, by simpa using hr, fun _ ↦ by simpa using hlt, fun j' rest h ↦ ?_⟩
    obtain ⟨rfl, rfl⟩ : j + 1 = j' ∧ heapClassGetLClass g _ _ j = rest := by simpa using h
    simp [visited_succ]
  | unreference node rest hpc =>
    refine ⟨by simpa using hc, by simpa using hr, ?_, ?_⟩
    · simp only [Sys.emit_threads, Sys.put_threads, Function.update_self]
      split <;> simp [Pc.inQuantum]
    · simp only [Sys.emit_threads, Sys.put_threads, Function.update_self]
      split <;> simp
  | endRemove pc hpc hn he =>
    obtain rfl | rfl := he <;>
    exact ⟨by simpa using hc, by simpa using hr, by simp [Pc.inQuantum], by simp⟩
  | _ => exact ⟨by simpa using hc, by simpa using hr, by simp [Pc.inQuantum], by simp⟩

/-- What holds of each thread on its own in every reachable state. -/
theorem Reachable.local (hs : Reachable g R s) (i : Nat) : Local g (s.threads i) := by
  induction hs with
  | start => exact ⟨rfl, Nat.zero_le _, by simp [runAcdc, Pc.inQuantum], by simp [runAcdc]⟩
  | step j hs hj h ih =>
    by_cases hij : i = j
    · subst hij
      exact (step_move h).local_self ih
    · rw [(step_move h).threads_of_ne hij]
      exact ih

/-- The clock of a thread stays below `2 ^ 31`. -/
theorem Reachable.clock_lt (hs : Reachable g R s) (i : Nat) :
    (s.threads i).mc.time.toNat < 2 ^ 31 := by
  have hL := hs.local i
  have hd := g.duration_lt
  have hr := hL.runs_le
  rw [hL.clock]
  omega

end Acdc
