import Acdc.Base.Barrier
import Acdc.Threads

/-!
# Clock drift and the time-gap barrier

The barrier of `src/acdc.c:535,619–625` is initialised for all threads and entered before the
first quantum and after each tick that is a multiple of `max_time_gap`. The number of rounds
that a thread has entered is read off its clock and its control point. Since the threads
are at most one round apart, their clocks are at most `max_time_gap` ticks apart, and a thread
that has left its loop has entered every round that another thread can wait in.
-/

namespace Acdc

open Barrier

variable {σ : Type}

/-- Greatest drift in ticks, `max_time_gap`. -/
def GOptions.gap (g : GOptions) : Nat := g.maxTimeGap.toNatClampNeg

/-- Control points between a return from the barrier and the next tick. -/
def Pc.beforeTick : Pc → Bool
  | .looping | .placing _ | .sharing _ _ | .accessing _ _ | .accounting => true
  | _ => false

/-- Number of barrier rounds that a thread has entered. -/
def Thread.entered (g : GOptions) (th : Thread σ) : Nat :=
  match th.pc with
  | .arriving => th.mc.time.toNat / g.gap
  | .removing | .deallocating _ | .recycling _ => (th.mc.time.toNat - 1) / g.gap + 1
  | _ => th.mc.time.toNat / g.gap + 1

/-- Thread `i` is blocked in `pthread_barrier_wait`. -/
def Blocked (g : GOptions) (i : Nat) (s : Sys σ) : Prop :=
  ∃ round, (s.threads i).pc = .waiting round ∧ s.arrivals < (round + 1) * g.threads

/-- Thread `i` has left its loop. -/
def Left (g : GOptions) (i : Nat) (s : Sys σ) : Prop :=
  (s.threads i).pc = .looping ∧ g.benchmarkDuration.toInt ≤ (s.threads i).runs

/-- What links the clock of a thread to the barrier. -/
structure PacedThread (g : GOptions) (th : Thread σ) (arrivals : Nat) : Prop where
  ticked : th.pc.inRemoval = true → 0 < th.mc.time.toNat
  arriving : th.pc = .arriving → g.gap ∣ th.mc.time.toNat
  waiting : ∀ round, th.pc = .waiting round →
    g.gap ∣ th.mc.time.toNat ∧ th.mc.time.toNat / g.gap = round
  complete : (∀ round, th.pc ≠ .waiting round) → th.entered g * g.threads ≤ arrivals

/-- The barrier counts the rounds that the clocks tell. -/
structure Paced (g : GOptions) (s : Sys σ) : Prop where
  rounds : Rounds g.threads (fun i ↦ (s.threads i).entered g) s.arrivals
  thread : ∀ i < g.threads, PacedThread g (s.threads i) s.arrivals

variable {g : GOptions} {R : Generator σ} {i j : Nat} {s s' : Sys σ}

/-- More arrivals do not reopen a complete round. -/
theorem PacedThread.mono {th : Thread σ} {a b : Nat} (h : PacedThread g th a) (hab : a ≤ b) :
    PacedThread g th b :=
  { h with complete := fun hpc ↦ Nat.le_trans (h.complete hpc) hab }

private theorem toNat_maxTimeGap (hg : 0 < g.maxTimeGap.toInt) :
    g.maxTimeGap.toUInt32.toNat = g.gap := by
  apply Int32.toNat_toUInt32_of_le
  rw [Int32.le_iff_toInt_le]
  exact Int.le_of_lt hg

/-- The end of `heap_class_remove` is followed by the time-gap test. -/
theorem timeGap_of_step (hg : 0 < g.maxTimeGap.toInt) (h : step g R i s = .ok s')
    (hpc : (s.threads i).pc = .removing)
    (hn : (s.threads i).mc.heapClass[heapClassRemoveIndex g (s.threads i).mc.time]? = some []) :
    s' = s.put i { s.threads i with
      pc := if g.gap ∣ (s.threads i).mc.time.toNat then .arriving else .looping } := by
  have hz : g.maxTimeGap ≠ 0 := by
    intro h0
    rw [h0] at hg
    exact absurd hg (by decide)
  have hdvd : (s.threads i).mc.time % g.maxTimeGap.toUInt32 = 0 ↔
      g.gap ∣ (s.threads i).mc.time.toNat := by
    rw [← UInt32.toNat_inj, UInt32.toNat_mod, toNat_maxTimeGap hg, Nat.dvd_iff_mod_eq_zero]
    rfl
  simp only [step, hpc, remove, hn, if_neg hz, hdvd] at h
  exact (Except.ok.inj h).symm

private theorem entered_after {t k : Nat} (ht : 0 < t) :
    (t - 1) / k + 1 = if k ∣ t then t / k else t / k + 1 := by
  obtain ⟨m, rfl⟩ := Nat.exists_eq_add_of_lt ht
  rw [show 0 + m + 1 - 1 = m by omega, show 0 + m + 1 = m + 1 by omega, Nat.succ_div]
  split <;> rfl

private theorem paced_beforeTick (th : Thread σ) {a : Nat} (hpc : th.pc.beforeTick = true)
    (hc : (th.mc.time.toNat / g.gap + 1) * g.threads ≤ a) :
    th.entered g = th.mc.time.toNat / g.gap + 1 ∧ PacedThread g th a := by
  have he : th.entered g = th.mc.time.toNat / g.gap + 1 := by
    unfold Thread.entered
    cases h : th.pc <;> simp [h, Pc.beforeTick] at hpc ⊢
  refine ⟨he, fun ha ↦ ?_, fun ha ↦ ?_, fun r ha ↦ ?_, fun _ ↦ he ▸ hc⟩
  · cases h : th.pc <;> simp [h, Pc.beforeTick, Pc.inRemoval] at hpc ha
  · simp [ha, Pc.beforeTick] at hpc
  · simp [ha, Pc.beforeTick] at hpc

private theorem paced_inRemoval (th : Thread σ) {a : Nat} (hpc : th.pc.inRemoval = true)
    (ht : 0 < th.mc.time.toNat)
    (hc : ((th.mc.time.toNat - 1) / g.gap + 1) * g.threads ≤ a) :
    th.entered g = (th.mc.time.toNat - 1) / g.gap + 1 ∧ PacedThread g th a := by
  have he : th.entered g = (th.mc.time.toNat - 1) / g.gap + 1 := by
    unfold Thread.entered
    cases h : th.pc <;> simp [h, Pc.inRemoval] at hpc ⊢
  refine ⟨he, fun _ ↦ ht, fun ha ↦ ?_, fun r ha ↦ ?_, fun _ ↦ he ▸ hc⟩
  · simp [ha, Pc.inRemoval] at hpc
  · simp [ha, Pc.inRemoval] at hpc

private theorem paced_of_beforeTick {th th' : Thread σ} {a : Nat} (hP : PacedThread g th a)
    (hpc : th.pc.beforeTick = true) (hpc' : th'.pc.beforeTick = true)
    (ht : th'.mc.time = th.mc.time) : th'.entered g = th.entered g ∧ PacedThread g th' a := by
  have hc := hP.complete fun r hr ↦ by simp [hr, Pc.beforeTick] at hpc
  have he : th.entered g = th.mc.time.toNat / g.gap + 1 := by
    unfold Thread.entered
    cases h : th.pc <;> simp [h, Pc.beforeTick] at hpc ⊢
  rw [he] at hc ⊢
  rw [← ht] at hc ⊢
  exact paced_beforeTick th' hpc' hc

private theorem paced_of_inRemoval {th th' : Thread σ} {a : Nat} (hP : PacedThread g th a)
    (hpc : th.pc.inRemoval = true) (hpc' : th'.pc.inRemoval = true)
    (ht : th'.mc.time = th.mc.time) : th'.entered g = th.entered g ∧ PacedThread g th' a := by
  have hc := hP.complete fun r hr ↦ by simp [hr, Pc.inRemoval] at hpc
  have he : th.entered g = (th.mc.time.toNat - 1) / g.gap + 1 := by
    unfold Thread.entered
    cases h : th.pc <;> simp [h, Pc.inRemoval] at hpc ⊢
  have hpos := hP.ticked hpc
  rw [he] at hc ⊢
  rw [← ht] at hc hpos ⊢
  exact paced_inRemoval th' hpc' hpos hc

private theorem beforeTick_enterAccess (g : GOptions) : (enterAccess g).beforeTick = true := by
  obtain h | h := enterAccess_cases g <;> rw [h] <;> rfl

private theorem paced_self (hg : 0 < g.maxTimeGap.toInt) (hs : Reachable g R s)
    (hP : PacedThread g (s.threads i) s.arrivals)
    (h : step g R i s = .ok s') (hne : (s.threads i).pc ≠ .arriving) :
    s'.arrivals = s.arrivals ∧ (s'.threads i).entered g = (s.threads i).entered g ∧
      PacedThread g (s'.threads i) s.arrivals := by
  have hm := step_move h
  cases hm with
  | arrive hpc => exact absurd hpc hne
  | depart round hpc hb =>
    obtain ⟨-, hr⟩ := hP.waiting round hpc
    refine ⟨rfl, ?_⟩
    have he : (s.threads i).entered g = (s.threads i).mc.time.toNat / g.gap + 1 := by
      simp only [Thread.entered, hpc]
    rw [he]
    simpa using paced_beforeTick { s.threads i with pc := .looping } rfl (hr ▸ hb)
  | tick hpc =>
    have ht := (hs.local i).toNat_time_succ (by rw [hpc]; rfl)
    have he : (s.threads i).entered g = (s.threads i).mc.time.toNat / g.gap + 1 := by
      simp only [Thread.entered, hpc]
    have hc := hP.complete fun r hr ↦ by simp [hpc] at hr
    refine ⟨rfl, ?_⟩
    simp only [Sys.put_threads, Function.update_self]
    have hn := paced_inRemoval (g := g) { s.threads i with
      mc := { (s.threads i).mc with time := (s.threads i).mc.time + 1 }
      pc := .removing
      timeCounter := 0
      runs := (s.threads i).runs + 1 } (a := s.arrivals) rfl (by simp [ht])
      (by simpa [ht, he] using hc)
    rw [he]
    simpa [ht] using hn
  | endRemove pc hpc hn he =>
    have he : (s.threads i).entered g = ((s.threads i).mc.time.toNat - 1) / g.gap + 1 := by
      simp only [Thread.entered, hpc]
    have hc := hP.complete fun r hr ↦ by simp [hpc] at hr
    have hpos := hP.ticked (by rw [hpc]; rfl)
    rw [he, entered_after hpos] at hc
    rw [he, entered_after hpos, timeGap_of_step hg h hpc hn]
    refine ⟨rfl, ?_⟩
    simp only [Sys.put_threads, Function.update_self]
    by_cases hd : g.gap ∣ (s.threads i).mc.time.toNat
    · simp only [if_pos hd] at hc ⊢
      refine ⟨rfl, nofun, fun _ ↦ hd, nofun, fun _ ↦ hc⟩
    · simp only [if_neg hd] at hc ⊢
      exact paced_beforeTick _ rfl hc
  | unreference node rest hpc hn =>
    refine ⟨rfl, paced_of_inRemoval hP (by rw [hpc]; rfl) ?_ (by simp)⟩
    simp only [Sys.emit_threads, Sys.put_threads, Function.update_self]
    split <;> rfl
  | deallocate node hpc hk | recycle node hpc =>
    exact ⟨rfl, paced_of_inRemoval hP (by rw [hpc]; rfl) (by simp [Pc.inRemoval]) (by simp)⟩
  | insert c node cache k rand hpc hsh ht hl | fetch c hpc =>
    refine ⟨rfl, paced_of_beforeTick hP (by rw [hpc]; rfl) ?_ (by simp)⟩
    simpa using beforeTick_enterAccess g
  | _ =>
    exact ⟨rfl, paced_of_beforeTick hP (by simp [*, Pc.beforeTick]) (by simp [Pc.beforeTick])
      (by simp)⟩

private theorem Paced.arrive (hi : i < g.threads) (hP : Paced g s)
    (hpc : (s.threads i).pc = .arriving) :
    Paced g { s.put i { s.threads i with pc := .waiting (s.arrivals / g.threads) } with
      arrivals := s.arrivals + 1 } := by
  have hT := hP.thread i hi
  have he : (s.threads i).entered g = (s.threads i).mc.time.toNat / g.gap := by
    simp only [Thread.entered, hpc]
  have hc := hT.complete fun r hr ↦ by simp [hpc] at hr
  obtain ⟨hround, hR⟩ := hP.rounds.enter hi hc
  refine ⟨?_, fun j hj ↦ ?_⟩
  · convert hR using 1
    funext j
    by_cases hji : j = i
    · subst hji
      simp [Thread.entered, hpc]
    · simp [Function.update_of_ne hji]
  · by_cases hji : j = i
    · subst hji
      simp only [Sys.put_threads, Function.update_self]
      refine ⟨nofun, nofun, fun r hr ↦ ?_, fun hw ↦ absurd rfl (hw _)⟩
      cases hr
      exact ⟨hT.arriving hpc, by rw [hround, he]⟩
    · simp only [Sys.put_threads, Function.update_of_ne hji]
      exact (hP.thread j hj).mono (Nat.le_succ _)

private theorem Paced.step (hg : 0 < g.maxTimeGap.toInt) (hi : i < g.threads)
    (hs : Reachable g R s) (hP : Paced g s) (h : step g R i s = .ok s') : Paced g s' := by
  by_cases hpc : (s.threads i).pc = .arriving
  · simp only [Acdc.step, hpc, Acdc.arrive] at h
    cases h
    exact hP.arrive hi hpc
  · obtain ⟨ha, he, hT⟩ := paced_self hg hs (hP.thread i hi) h hpc
    have hne (j : Nat) (hji : j ≠ i) := (step_move h).threads_of_ne hji
    refine ⟨?_, fun j hj ↦ ?_⟩
    · rw [ha]
      convert hP.rounds using 2 with j
      by_cases hji : j = i
      · rw [hji, he]
      · rw [hne j hji]
    · rw [ha]
      by_cases hji : j = i
      · rw [hji]
        exact hT
      · rw [hne j hji]
        exact hP.thread j hj

/-- The barrier is in pace with the clocks in every reachable state. -/
theorem Reachable.paced (hg : 0 < g.maxTimeGap.toInt) (hs : Reachable g R s) : Paced g s := by
  induction hs with
  | start =>
    refine ⟨?_, fun i _ ↦ ⟨by simp [runAcdc, Pc.inRemoval], ?_, by simp [runAcdc], ?_⟩⟩
    · simpa [runAcdc, Thread.entered, createMutatorContext] using rounds_zero g.threads
    · simp [runAcdc, createMutatorContext]
    · simp [runAcdc, Thread.entered, createMutatorContext]
  | step i hs hi h ih => exact ih.step hg hi hs h

private theorem PacedThread.clock {th : Thread σ} {a : Nat} (hg : 0 < g.gap)
    (hT : PacedThread g th a) :
    g.gap * th.entered g ≤ th.mc.time.toNat + g.gap ∧
      th.mc.time.toNat ≤ g.gap * th.entered g := by
  have hspan (t : Nat) : g.gap * (t / g.gap + 1) ≤ t + g.gap ∧ t < g.gap * (t / g.gap + 1) := by
    have := Nat.mul_div_le t g.gap
    rw [Nat.mul_add_one]
    exact ⟨by omega, by rw [← Nat.mul_add_one]; exact Nat.lt_mul_div_succ t hg⟩
  unfold Thread.entered
  cases hpc : th.pc with
  | arriving =>
    have hk := Nat.mul_div_cancel' (hT.arriving hpc)
    simp only
    omega
  | removing | deallocating node | recycling node =>
    have hpos := hT.ticked (by rw [hpc]; rfl)
    have hspan' := hspan (th.mc.time.toNat - 1)
    simp only
    omega
  | _ =>
    have hspan' := hspan th.mc.time.toNat
    simp only
    omega

/-- A thread that waits has its clock at the start of its last gap. -/
theorem PacedThread.clock_of_waiting {th : Thread σ} {a round : Nat}
    (hT : PacedThread g th a) (hpc : th.pc = .waiting round) :
    th.entered g = round + 1 ∧ th.mc.time.toNat = g.gap * round := by
  obtain ⟨⟨k, hk⟩, hr⟩ := hT.waiting round hpc
  refine ⟨by simp only [Thread.entered, hpc, hr], ?_⟩
  rw [← hr, Nat.mul_div_cancel' ⟨k, hk⟩]

/-- The clocks of two threads are at most a gap apart. -/
theorem Paced.drift (hg : 0 < g.gap) (hP : Paced g s) (hi : i < g.threads)
    (hj : j < g.threads) :
    (s.threads i).mc.time.toNat ≤ (s.threads j).mc.time.toNat + g.gap := by
  have hTi := hP.thread i hi
  have hlow := ((hP.thread j hj).clock hg).1
  by_cases hw : ∃ round, (s.threads i).pc = .waiting round
  · obtain ⟨round, hpc⟩ := hw
    obtain ⟨he, ht⟩ := hTi.clock_of_waiting hpc
    have hle : round ≤ (s.threads j).entered g := by
      have := hP.rounds.entered_le hi hj
      simp only [he] at this
      omega
    have := Nat.mul_le_mul_left g.gap hle
    omega
  · have hle : (s.threads i).entered g ≤ (s.threads j).entered g :=
      hP.rounds.entered_le_of_complete hj (hTi.complete fun r hr ↦ hw ⟨r, hr⟩)
    have hup := (hTi.clock hg).2
    have := Nat.mul_le_mul_left g.gap hle
    omega

/-- The barrier bounds the drift of the clocks and strands nobody: a thread that waits is
blocked exactly until all threads have arrived in its round, and till then another
thread is neither blocked nor out of its loop. -/
structure DriftBounded (g : GOptions) (s : Sys σ) : Prop where
  drift : ∀ i < g.threads, ∀ j < g.threads,
    (s.threads i).mc.time.toNat ≤ (s.threads j).mc.time.toNat + g.gap
  arrived : ∀ i < g.threads, ∀ round, (s.threads i).pc = .waiting round →
    (¬ Blocked g i s ↔ ∀ j < g.threads, round < (s.threads j).entered g)
  notStranded : ∀ i < g.threads, Blocked g i s →
    ∃ j < g.threads, j ≠ i ∧ ¬ Blocked g j s ∧ ¬ Left g j s

/-- A thread that lags a round behind a blocked thread can go on, or has not left its loop. -/
theorem Paced.free_of_behind (hs : Reachable g R s) (hP : Paced g s)
    (hi : i < g.threads) (hj : j < g.threads) (hb : Blocked g i s)
    (hlt : (s.threads j).entered g < (s.threads i).entered g) :
    ¬ Blocked g j s ∧ ¬ Left g j s := by
  obtain ⟨r, hpc, -⟩ := hb
  obtain ⟨he, ht⟩ := (hP.thread i hi).clock_of_waiting hpc
  constructor
  · -- its round is the one before, which all threads have entered
    rintro ⟨r', hpc', hopen⟩
    obtain ⟨he', -⟩ := (hP.thread j hj).clock_of_waiting hpc'
    have hcomplete : (r' + 1) * g.threads ≤ s.arrivals := by
      apply hP.rounds.complete_iff.mpr
      intro k hk
      have hik := hP.rounds.entered_le hi hk
      simp only [he] at hik
      omega
    omega
  · -- it has the greatest clock, so it has entered all rounds
    rintro ⟨hpc', hruns⟩
    have hLi := hs.local i
    have hLj := hs.local j
    have hd : (s.threads i).mc.time.toNat ≤ (s.threads j).mc.time.toNat := by
      have hge : ¬ ((s.threads j).runs : Int) < g.benchmarkDuration.toInt := by omega
      rw [GOptions.lt_duration_iff] at hge
      have := hLi.runs_le
      rw [hLi.clock, hLj.clock]
      omega
    have hdiv := Nat.div_le_div_right (c := g.gap) hd
    obtain ⟨-, hr⟩ := (hP.thread i hi).waiting r hpc
    have hej : (s.threads j).entered g = (s.threads j).mc.time.toNat / g.gap + 1 := by
      simp only [Thread.entered, hpc']
    omega

/-- The clock drift is bounded and nobody is stranded, for every number of threads and in
any interleaving. -/
theorem driftBounded_of_reachable (hg : 0 < g.maxTimeGap.toInt) (hs : Reachable g R s) :
    DriftBounded g s := by
  have hP := hs.paced hg
  have hgap : 0 < g.gap := by
    simp only [GOptions.gap, Int32.toNatClampNeg]
    omega
  have hblocked {i round : Nat} (hpc : (s.threads i).pc = .waiting round) :
      ¬ Blocked g i s ↔ (round + 1) * g.threads ≤ s.arrivals := by
    simp [Blocked, hpc]
  refine ⟨fun i hi j hj ↦ hP.drift hgap hi hj, fun i hi round hpc ↦ ?_, fun i hi hb ↦ ?_⟩
  · rw [hblocked hpc]
    exact hP.rounds.complete_iff
  · have hbi := hb
    obtain ⟨round, hpc, hopen⟩ := hb
    have hbehind := mt hP.rounds.complete_iff.mpr (Nat.not_le_of_lt hopen)
    push Not at hbehind
    obtain ⟨j, hj, hle⟩ := hbehind
    obtain ⟨he, -⟩ := (hP.thread i hi).clock_of_waiting hpc
    have hlt : (s.threads j).entered g < (s.threads i).entered g := by omega
    refine ⟨j, hj, ?_, hP.free_of_behind hs hi hj hbi hlt⟩
    intro hji
    rw [hji] at hlt
    exact Nat.lt_irrefl _ hlt

/-- Two threads and a gap of one tick: one thread waits after its first tick for the other. -/
theorem driftBounded_of_reachable_two_threads :
    ∃ s, Reachable { smallOptions 2 1 0 with maxTimeGap := 1 } (schrage (smallOptions 2 1 0)) s ∧
      Blocked { smallOptions 2 1 0 with maxTimeGap := 1 } 0 s ∧
      (s.threads 0).mc.time = 1 ∧ (s.threads 1).mc.time = 0 ∧
      DriftBounded { smallOptions 2 1 0 with maxTimeGap := 1 } s := by
  obtain ⟨s, hs, hpc, ha, h0, h1⟩ := exists_of_endsIn { smallOptions 2 1 0 with maxTimeGap := 1 }
    (schrage (smallOptions 2 1 0)) ([0, 1, 0, 1] ++ List.replicate 8 0)
    (fun s ↦ (s.threads 0).pc = .waiting 1 ∧ s.arrivals = 3 ∧
      (s.threads 0).mc.time = 1 ∧ (s.threads 1).mc.time = 0) (by decide +kernel) (by decide)
  exact ⟨s, hs, ⟨1, hpc, by rw [ha]; decide⟩, h0, h1, driftBounded_of_reachable (by decide) hs⟩

end Acdc
