import Acdc.Base.Quantum
import Acdc.Threads

/-!
# The clock of a thread

Time in the main loop, `src/acdc.c:521–631`, is what the thread itself allocates. Each turn adds
the bytes of its lifetime-size-class to `time_counter`, which a full quantum resets to zero. The
loop is considered here for any draws, first alone and then inside the runs of all threads.
-/

namespace Acdc

open Quantum

/-- Size and number of the objects of a turn, after the overrides. -/
structure Draw where
  size : UInt64
  numObjects : UInt32
  deriving DecidableEq, Repr

/-- The locals and fields of the main loop that count allocations. -/
structure Clock where
  timeCounter : UInt64
  runs : Nat
  time : UInt32
  bytesAllocated : UInt64
  deriving DecidableEq, Repr

namespace Clock

/-- `src/acdc.c:526–527,189`. -/
def start : Clock := ⟨0, 0, 0, 0⟩

/-- The bytes that `allocate_LSClass` counts; `src/lifetime-size-classes.c:472`. -/
def allocate (p : Draw) (k : Clock) : Clock :=
  { k with bytesAllocated := k.bytesAllocated + p.size * p.numObjects.toUInt64 }

/-- The advance of time; `src/acdc.c:599–610`. -/
def account (g : GOptions) (p : Draw) (k : Clock) : Clock :=
  let timeCounter := k.timeCounter + p.size * p.numObjects.toUInt64
  if g.timeQuantum ≤ timeCounter then
    { k with timeCounter := 0, runs := k.runs + 1, time := k.time + 1 }
  else { k with timeCounter := timeCounter }

/-- One turn of the loop. -/
def turn (g : GOptions) (k : Clock) (p : Draw) : Clock := (k.allocate p).account g p

/-- Some turns. -/
def run (g : GOptions) (ps : List Draw) : Clock := ps.foldl (turn g) start

/-- The first `m` turns on a stream of draws. -/
def after (g : GOptions) (draws : Nat → Draw) (m : Nat) : Clock :=
  run g ((List.range m).map draws)

end Clock

/-- The main loop from turn `m` on: the number of turns that it has made when it ends, and the
clock; `src/acdc.c:540–628`. -/
def acdcThread (g : GOptions) (draws : Nat → Draw) : Nat → Nat → Clock → Option (Nat × Clock)
  | 0, _, _ => none
  | fuel + 1, m, k =>
    if (k.runs : Int) < g.benchmarkDuration.toInt then
      acdcThread g draws fuel (m + 1) (k.turn g (draws m))
    else some (m, k)

/-- Turn `m` advances the clock. -/
def Advances (g : GOptions) (draws : Nat → Draw) (m : Nat) : Prop :=
  (Clock.after g draws (m + 1)).time ≠ (Clock.after g draws m).time

namespace Draw

/-- The bytes of a turn, without a bound. -/
def bytes (p : Draw) : Nat := p.size.toNat * p.numObjects.toNat

/-- Objects of at least two pointers and less than `2 ^ 31` bytes, and at least one of them. -/
structure InRange (p : Draw) : Prop where
  size_ge : 16 ≤ p.size.toNat
  size_lt : p.size.toNat < 2 ^ 31
  num_pos : 1 ≤ p.numObjects.toNat

theorem InRange.le_bytes {p : Draw} (h : p.InRange) : 16 ≤ p.bytes :=
  Nat.mul_le_mul h.size_ge h.num_pos

/-- The bytes of a turn leave room for a quantum. -/
theorem InRange.bytes_lt {p : Draw} (h : p.InRange) : p.bytes < 2 ^ 63 := by
  have hlt : p.size.toNat * p.numObjects.toNat < 2 ^ 31 * 2 ^ 32 :=
    Nat.mul_lt_mul'' h.size_lt p.numObjects.toNat_lt
  exact hlt

/-- The product of the loop is exact. -/
theorem InRange.toNat_mul {p : Draw} (h : p.InRange) :
    (p.size * p.numObjects.toUInt64).toNat = p.bytes := by
  have hlt := h.bytes_lt
  rw [bytes] at hlt
  rw [UInt64.toNat_mul, UInt32.toNat_toUInt64, bytes]
  exact Nat.mod_eq_of_lt (by omega)

end Draw

variable {g : GOptions} {draws : Nat → Draw} {p : Draw} {ps : List Draw} {k : Clock}

/-! ### Turns -/

/-- The clock shows a gauge that has been filled with a number of bytes. -/
structure Shows (x : Gauge) (total : Nat) (k : Clock) : Prop where
  timeCounter : k.timeCounter.toNat = x.level
  runs : k.runs = x.ticks
  time : k.time = UInt32.ofNat x.ticks
  bytesAllocated : k.bytesAllocated = UInt64.ofNat total

/-- The bounds of a quantum. -/
structure GOptions.HasQuantum (g : GOptions) : Prop where
  pos : 1 ≤ g.timeQuantum.toNat
  lt : g.timeQuantum.toNat < 2 ^ 63

/-- A turn fills its bytes into the gauge. -/
theorem Shows.turn {x : Gauge} {total : Nat} (h : Shows x total k) (hp : p.InRange)
    (hx : x.level < 2 ^ 63) :
    Shows (x.add g.timeQuantum.toNat p.bytes) (total + p.bytes) (k.turn g p) := by
  have hbytes := hp.bytes_lt
  have hsum : (k.timeCounter + p.size * p.numObjects.toUInt64).toNat = x.level + p.bytes := by
    rw [UInt64.toNat_add, h.timeCounter, hp.toNat_mul]
    exact Nat.mod_eq_of_lt (by omega)
  have htotal : k.bytesAllocated + p.size * p.numObjects.toUInt64 =
      UInt64.ofNat (total + p.bytes) := by
    rw [h.bytesAllocated, UInt64.ofNat_add, ← hp.toNat_mul, UInt64.ofNat_toNat]
  rw [Clock.turn, Clock.account, Clock.allocate]
  dsimp only
  by_cases hle : g.timeQuantum.toNat ≤ x.level + p.bytes
  · rw [if_pos (UInt64.le_iff_toNat_le.mpr (hsum ▸ hle)), add_of_le hle]
    exact ⟨rfl, congrArg (· + 1) h.runs, by rw [h.time, UInt32.ofNat_add]; rfl, htotal⟩
  · rw [if_neg fun hc ↦ hle (hsum ▸ UInt64.le_iff_toNat_le.mp hc),
      add_of_lt (Nat.lt_of_not_le hle)]
    exact ⟨hsum, h.runs, h.time, htotal⟩

/-- The gauge of the turns on some draws. -/
def gaugeOf (g : GOptions) (ps : List Draw) : Gauge :=
  gauge g.timeQuantum.toNat (ps.map Draw.bytes)

/-- Turns fill their bytes into the gauge. -/
theorem shows_run (hq : g.HasQuantum) (hps : ∀ p ∈ ps, p.InRange) :
    Shows (gaugeOf g ps) (ps.map Draw.bytes).sum (Clock.run g ps) := by
  induction ps using List.reverseRecOn with
  | nil => exact ⟨rfl, rfl, rfl, rfl⟩
  | append_singleton ps p ih =>
    have hlt := level_lt hq.pos (ps.map Draw.bytes)
    have hq' := hq.lt
    have hshow := (ih fun p hp ↦ hps p (List.mem_append_left _ hp)).turn (g := g)
      (hps p (List.mem_append_right _ List.mem_cons_self)) (Nat.lt_trans hlt hq')
    rw [gaugeOf, Clock.run, List.map_append, List.map_singleton, gauge_append_singleton,
      List.sum_append, List.sum_singleton, List.foldl_append]
    exact hshow

/-! ### The loop -/

theorem after_succ (m : Nat) :
    Clock.after g draws (m + 1) = (Clock.after g draws m).turn g (draws m) := by
  rw [Clock.after, Clock.run, List.range_succ, List.map_append, List.foldl_append]
  rfl

/-- The gauge of the first turns. -/
def gaugeAfter (g : GOptions) (draws : Nat → Draw) (m : Nat) : Gauge :=
  gaugeOf g ((List.range m).map draws)

theorem gaugeAfter_succ (m : Nat) : gaugeAfter g draws (m + 1) =
    (gaugeAfter g draws m).add g.timeQuantum.toNat (draws m).bytes := by
  rw [gaugeAfter, gaugeOf, List.range_succ, List.map_append, List.map_append,
    List.map_singleton, List.map_singleton, gauge_append_singleton]
  rfl

/-- The bytes of turns `i` to `j - 1`. -/
def bytesBetween (draws : Nat → Draw) (i j : Nat) : Nat :=
  ((List.range' i (j - i)).map fun m ↦ (draws m).bytes).sum

theorem bytesBetween_zero (m : Nat) :
    bytesBetween draws 0 m = (((List.range m).map draws).map Draw.bytes).sum := by
  rw [bytesBetween, Nat.sub_zero, ← List.range_eq_range', List.map_map]
  rfl

theorem bytesBetween_succ {i j : Nat} (hij : i ≤ j) :
    bytesBetween draws i (j + 1) = bytesBetween draws i j + (draws j).bytes := by
  rw [bytesBetween, Nat.succ_sub hij, List.range'_1_concat, List.map_append, List.sum_append,
    Nat.add_sub_cancel' hij, List.map_singleton, List.sum_singleton]
  rfl

section Stream

variable (hq : g.HasQuantum) (hdraws : ∀ m, (draws m).InRange)
include hq hdraws

theorem shows_after (m : Nat) :
    Shows (gaugeAfter g draws m) (bytesBetween draws 0 m) (Clock.after g draws m) := by
  have hps : ∀ p ∈ (List.range m).map draws, p.InRange := by
    intro p hp
    obtain ⟨i, -, rfl⟩ := List.mem_map.mp hp
    exact hdraws i
  rw [bytesBetween_zero]
  exact shows_run hq hps

/-- Turns are fewer than those that fill one more quantum. -/
theorem lt_ticks (m : Nat) :
    m < ((gaugeAfter g draws m).ticks + 1) * ((g.timeQuantum.toNat + 15) / 16) := by
  have has : ∀ a ∈ ((List.range m).map draws).map Draw.bytes, 16 ≤ a := by
    intro a ha
    obtain ⟨p, hp, rfl⟩ := List.mem_map.mp ha
    obtain ⟨i, -, rfl⟩ := List.mem_map.mp hp
    exact (hdraws i).le_bytes
  have h := length_lt (by decide) hq.pos _ has
  rw [List.length_map, List.length_map, List.length_range] at h
  exact h

/-- The loop ends once the clock has advanced `d` times. -/
theorem exists_acdcThread {d : Nat} (hd : g.benchmarkDuration.toInt = d) {fuel m : Nat}
    (hm : m ≤ d * ((g.timeQuantum.toNat + 15) / 16))
    (hfuel : d * ((g.timeQuantum.toNat + 15) / 16) < m + fuel)
    (hticks : (gaugeAfter g draws m).ticks ≤ d) :
    ∃ n, acdcThread g draws fuel m (Clock.after g draws m) = some (n, Clock.after g draws n) ∧
      n ≤ d * ((g.timeQuantum.toNat + 15) / 16) ∧ (gaugeAfter g draws n).ticks = d := by
  induction fuel generalizing m with
  | zero => omega
  | succ fuel ih =>
    rw [acdcThread, (shows_after hq hdraws m).runs, hd]
    by_cases hlt : (gaugeAfter g draws m).ticks < d
    · have hbound := lt_ticks hq hdraws m
      have hmul : ((gaugeAfter g draws m).ticks + 1) * ((g.timeQuantum.toNat + 15) / 16) ≤
          d * ((g.timeQuantum.toNat + 15) / 16) := Nat.mul_le_mul_right _ hlt
      rw [if_pos (by omega), ← after_succ]
      apply ih (by omega) (by omega)
      rw [gaugeAfter_succ, Gauge.add]
      split
      · exact hlt
      · exact hticks
    · rw [if_neg (by omega)]
      exact ⟨m, rfl, hm, by omega⟩

/-- The clock advances with the gauge. -/
theorem advances_iff (m : Nat) : Advances g draws m ↔
    (gaugeAfter g draws (m + 1)).ticks ≠ (gaugeAfter g draws m).ticks := by
  rw [Advances, (shows_after hq hdraws (m + 1)).time, (shows_after hq hdraws m).time,
    gaugeAfter_succ, Gauge.add]
  split
  · have hone : UInt32.ofNat ((gaugeAfter g draws m).ticks + 1) ≠
        UInt32.ofNat (gaugeAfter g draws m).ticks := by
      rw [← UInt32.toNat_inj.ne, UInt32.toNat_ofNat', UInt32.toNat_ofNat']
      omega
    exact iff_of_true hone (Nat.succ_ne_self _)
  · exact iff_of_false (fun h ↦ h rfl) fun h ↦ h rfl

private theorem ticks_eq {i j : Nat} (hij : i ≤ j)
    (hno : ∀ m, i ≤ m → m < j → ¬ Advances g draws m) :
    (gaugeAfter g draws j).ticks = (gaugeAfter g draws i).ticks := by
  induction j, hij using Nat.le_induction with
  | base => rfl
  | succ j hij ih =>
    have hj := hno j hij (Nat.lt_succ_self j)
    rw [advances_iff hq hdraws, not_not] at hj
    rw [hj]
    exact ih fun m hm hlt ↦ hno m hm (Nat.lt_succ_of_lt hlt)

private theorem level_eq {i j : Nat} (hij : i ≤ j) (hi : ∀ m, m + 1 = i → Advances g draws m)
    (hno : ∀ m, i ≤ m → m < j → ¬ Advances g draws m) :
    (gaugeAfter g draws j).level = bytesBetween draws i j := by
  have hzero : (gaugeAfter g draws i).level = 0 := by
    cases i with
    | zero => rfl
    | succ m =>
      have hm := (advances_iff hq hdraws m).mp (hi m rfl)
      rw [gaugeAfter_succ] at hm ⊢
      exact level_add_of_ne hm
  have hsplit : ((List.range j).map draws).map Draw.bytes =
      ((List.range i).map draws).map Draw.bytes ++
        (List.range' i (j - i)).map fun m ↦ (draws m).bytes := by
    have hrange : List.range j = List.range i ++ List.range' i (j - i) := by
      have happ : List.range' 0 i ++ List.range' (0 + i) (j - i) = List.range' 0 (i + (j - i)) :=
        List.range'_append_1
      rw [Nat.zero_add, Nat.add_sub_cancel' hij] at happ
      rw [List.range_eq_range', List.range_eq_range', happ]
    rw [hrange, List.map_append, List.map_append, List.map_map, List.map_map]
    rfl
  have hticks := ticks_eq hq hdraws hij hno
  rw [gaugeAfter, gaugeOf, hsplit] at hticks ⊢
  exact level_append hzero hticks

/-- Turns up to the one that advances the clock allocate a quantum, and without it less. -/
theorem quantum_between {i j : Nat} (hij : i ≤ j) (hi : ∀ m, m + 1 = i → Advances g draws m)
    (hno : ∀ m, i ≤ m → m < j → ¬ Advances g draws m) (hj : Advances g draws j) :
    g.timeQuantum.toNat ≤ bytesBetween draws i (j + 1) ∧
      bytesBetween draws i j < g.timeQuantum.toNat := by
  have hlevel := level_eq hq hdraws hij hi hno
  have hfull := (advances_iff hq hdraws j).mp hj
  rw [gaugeAfter_succ, ticks_add_ne_iff, hlevel] at hfull
  rw [← hlevel]
  rw [bytesBetween_succ hij]
  exact ⟨hfull, level_lt hq.pos _⟩

omit hq in
/-- The sum of the loop does not wrap. -/
theorem timeCounter_add_lt (hq : g.HasQuantum) (m : Nat) :
    (Clock.after g draws m).timeCounter.toNat + (draws m).bytes < 2 ^ 64 := by
  have hlevel := level_lt hq.pos (((List.range m).map draws).map Draw.bytes)
  have hlt := hq.lt
  have hbytes := (hdraws m).bytes_lt
  rw [(shows_after hq hdraws m).timeCounter, gaugeAfter, gaugeOf]
  omega

end Stream

/-- The loop ends with the clock at the duration. Between two advances of the clock the thread
allocates a quantum, and less than that without the last collection. The counter of the loop does
not wrap, and all quanta together are allocated at the end. -/
theorem acdcThread_quanta (draws : Nat → Draw) {d : Nat} (hq : g.HasQuantum)
    (hd : g.benchmarkDuration.toInt = d) (hdraws : ∀ m, (draws m).InRange) :
    ∃ n k, acdcThread g draws (d * ((g.timeQuantum.toNat + 15) / 16) + 1) 0 .start = some (n, k) ∧
      n ≤ d * ((g.timeQuantum.toNat + 15) / 16) ∧ k.time.toNat = d ∧
      (∀ i j, i ≤ j → j < n → (∀ m, m + 1 = i → Advances g draws m) →
        (∀ m, i ≤ m → m < j → ¬ Advances g draws m) → Advances g draws j →
          g.timeQuantum.toNat ≤ bytesBetween draws i (j + 1) ∧
            bytesBetween draws i j < g.timeQuantum.toNat) ∧
      (∀ m < n, (Clock.after g draws m).timeCounter.toNat + (draws m).bytes < 2 ^ 64) ∧
      k.bytesAllocated = UInt64.ofNat (bytesBetween draws 0 n) ∧
      d * g.timeQuantum.toNat ≤ bytesBetween draws 0 n := by
  obtain ⟨n, hn, hle, hticks⟩ := exists_acdcThread hq hdraws hd (Nat.zero_le _)
    (show _ < 0 + (d * ((g.timeQuantum.toNat + 15) / 16) + 1) by omega) (Nat.zero_le d)
  have hshow := shows_after hq hdraws n
  have htime : (Clock.after g draws n).time.toNat = d := by
    have hlt := g.benchmarkDuration.toInt_lt
    rw [hshow.time, hticks, UInt32.toNat_ofNat_of_lt' (show d < 2 ^ 32 by omega)]
  have htotal : d * g.timeQuantum.toNat ≤ bytesBetween draws 0 n := by
    have hsum := ticks_mul_add_level_le g.timeQuantum.toNat
      (((List.range n).map draws).map Draw.bytes)
    rw [← bytesBetween_zero, ← gaugeOf, ← gaugeAfter, hticks] at hsum
    omega
  exact ⟨n, _, hn, hle, htime, fun i j hij _ ↦ quantum_between hq hdraws hij,
    fun m _ ↦ timeCounter_add_lt hdraws hq m, hshow.bytesAllocated, htotal⟩

/-- Two quanta of 100 bytes, from objects of 48 bytes. -/
theorem acdcThread_quanta_two :
    let g := { GOptions.setDefaultParams with timeQuantum := 100, benchmarkDuration := 2 }
    ∃ n k, acdcThread g (fun _ ↦ ⟨48, 1⟩) 15 0 .start = some (n, k) ∧ n ≤ 14 ∧
      k.time.toNat = 2 := by
  intro g
  have hq : g.HasQuantum := ⟨by decide, by decide⟩
  have hfuel : 2 * ((g.timeQuantum.toNat + 15) / 16) = 14 := by decide
  have h := acdcThread_quanta (fun _ ↦ ⟨48, 1⟩) (d := 2) hq rfl
    fun _ ↦ ⟨by decide, by decide, by decide⟩
  rw [hfuel] at h
  obtain ⟨n, k, hn, hle, htime, -⟩ := h
  exact ⟨n, k, hn, hle, htime⟩

/-! ### Clocks in the runs of all threads -/

section Runs

variable {σ : Type} {R : Generator σ} {s s' : Sys σ} {i j : Nat}

/-- The clock of a thread. -/
def Thread.clock (th : Thread σ) : Clock :=
  ⟨th.timeCounter, th.runs, th.mc.time, th.mc.stat.bytesAllocated⟩

/-- The draw of the turn in which a thread is. -/
def Thread.draw (th : Thread σ) : Draw := ⟨th.sz, th.numObjects⟩

/-- The draws of a thread, the first one first. -/
def drawsOf (i : Nat) : List Event → List Draw
  | [] => []
  | .allocated j _ d :: log =>
    if j = i then drawsOf i log ++ [⟨d.objectSize, d.numObjects.toUInt32⟩] else drawsOf i log
  | _ :: log => drawsOf i log

/-- The clock of a thread shows the turns that it has made. Inside a turn its collection has been
counted by the allocator but not by the loop. -/
structure Clocked (g : GOptions) (ps : List Draw) (th : Thread σ) : Prop where
  between : th.pc.inQuantum = false → th.clock = Clock.run g ps
  inside : th.pc.inQuantum = true →
    ∃ done, ps = done ++ [th.draw] ∧ th.clock = (Clock.run g done).allocate th.draw

private theorem inQuantum_enterAccess (g : GOptions) : (enterAccess g).inQuantum = true := by
  obtain h | h := enterAccess_cases g <;>
  · rw [h]
    rfl

/-- A thread draws for itself only. -/
theorem Move.drawsOf_of_ne (h : Move g R i s s') (hj : j ≠ i) :
    drawsOf j s'.log = drawsOf j s.log := by
  cases h with
  | create p₀ p rand c cache k => simp [drawsOf, hj.symm]
  | _ => simp [drawsOf]

private theorem Move.clock_frame (h : Move g R i s s') (hl : (s.threads i).pc ≠ .looping)
    (ha : (s.threads i).pc ≠ .accounting) :
    (s'.threads i).clock = (s.threads i).clock ∧ (s'.threads i).draw = (s.threads i).draw ∧
      (s'.threads i).pc.inQuantum = (s.threads i).pc.inQuantum ∧
      drawsOf i s'.log = drawsOf i s.log := by
  cases h with
  | create p₀ p rand c cache k hpc => exact absurd hpc hl
  | tick hpc => exact absurd hpc ha
  | resume timeCounter hpc => exact absurd hpc ha
  | insert c node cache k rand hpc =>
    have hq : (Pc.placing c).inQuantum = true := rfl
    simp [Thread.clock, Thread.draw, drawsOf, inQuantum_enterAccess, hq, hpc]
  | fetch c hpc =>
    have hq : (Pc.sharing c []).inQuantum = true := rfl
    simp [Thread.clock, Thread.draw, inQuantum_enterAccess, hq, hpc]
  | unreference node rest hpc =>
    simp only [Sys.emit_threads, Sys.put_threads, Function.update_self, hpc]
    split <;> simp [Thread.clock, Thread.draw, drawsOf, Pc.inQuantum]
  | endRemove pc hpc hn he =>
    obtain rfl | rfl := he <;> simp [Thread.clock, Thread.draw, Pc.inQuantum, hpc]
  | _ => simp [Thread.clock, Thread.draw, drawsOf, Pc.inQuantum, MStat.uncount, *]

private theorem Move.clock_create (h : Move g R i s s') (hpc : (s.threads i).pc = .looping) :
    (s'.threads i).pc.inQuantum = true ∧
      (s'.threads i).clock = (s.threads i).clock.allocate (s'.threads i).draw ∧
      drawsOf i s'.log = drawsOf i s.log ++ [(s'.threads i).draw] := by
  cases h with
  | create p₀ p rand c cache k =>
    and_intros
    · simp [Pc.inQuantum]
    · simp [Thread.clock, Thread.draw, Clock.allocate, MStat.count]
    · simp [Thread.draw, drawsOf, newDescriptor]
  | _ => simp_all

private theorem step_accounting (hpc : (s.threads i).pc = .accounting)
    (h : step g R i s = .ok s') :
    (s'.threads i).pc.inQuantum = false ∧
      (s'.threads i).clock = (s.threads i).clock.account g (s.threads i).draw ∧
      s'.log = s.log := by
  rw [step, hpc] at h
  dsimp only at h
  rw [account] at h
  dsimp only at h
  split at h
  · next hle =>
    cases h
    simp [Thread.clock, Thread.draw, Clock.account, Pc.inQuantum, hle]
  · next hle =>
    cases h
    simp [Thread.clock, Thread.draw, Clock.account, Pc.inQuantum, hle]

/-- The clock of every thread of a run is that of the main loop on its draws. -/
theorem Reachable.clocked (hs : Reachable g R s) (i : Nat) :
    Clocked g (drawsOf i s.log) (s.threads i) := by
  induction hs with
  | start => exact ⟨fun _ ↦ rfl, nofun⟩
  | @step s s' j hs hj h ih =>
    have hm := step_move h
    by_cases hij : i = j
    case neg =>
      rw [hm.drawsOf_of_ne hij, hm.threads_of_ne hij]
      exact ih
    subst hij
    by_cases hl : (s.threads i).pc = .looping
    · obtain ⟨hq, hc, hps⟩ := hm.clock_create hl
      have hbetween := ih.between (by rw [hl]; rfl)
      constructor
      · intro hno
        rw [hq] at hno
        cases hno
      · intro _
        exact ⟨_, hps, by rw [hc, hbetween]⟩
    · by_cases ha : (s.threads i).pc = .accounting
      · obtain ⟨hq, hc, hlog⟩ := step_accounting ha h
        obtain ⟨done, hps, hinside⟩ := ih.inside (by rw [ha]; rfl)
        rw [hlog]
        constructor
        · intro _
          rw [hc, hinside, hps, Clock.run, Clock.run, List.foldl_append]
          rfl
        · intro hyes
          rw [hq] at hyes
          cases hyes
      · obtain ⟨hc, hd, hq, hlog⟩ := hm.clock_frame hl ha
        rw [hlog]
        constructor
        · intro hno
          rw [hc]
          exact ih.between (hq ▸ hno)
        · intro hyes
          rw [hc, hd]
          exact ih.inside (hq ▸ hyes)

private theorem le_size_prepareProps (p : ObjectProps) : 16 ≤ (prepareProps g p).size.toNat := by
  have h16 : sizeofBTObject.toNat = 16 := rfl
  have hsize : ∀ q : ObjectProps,
      16 ≤ (if q.size < sizeofBTObject then { q with size := sizeofBTObject }
        else q).size.toNat := by
    intro q
    split
    · exact Nat.le_of_eq h16.symm
    · next h =>
      rw [UInt64.lt_iff_toNat_lt] at h
      omega
  rw [prepareProps]
  split
  · exact hsize _
  · split <;> exact hsize _

/-- A collection that is built passes the assertions of `allocate_LSClass`. -/
theorem inRange_newDescriptor {n : Nat} {p₀ p : ObjectProps} (he : p = prepareProps g p₀)
    (hb : (newDescriptor g i n p).Built g) (h0 : 0 ≤ g.maxObjectSc.toInt)
    (h31 : g.maxObjectSc.toInt ≤ 31) : (Draw.mk p.size p.numObjects).InRange := by
  have hlt := hb.size_lt
  have hpos := hb.num_pos
  simp only [newDescriptor, UInt64.lt_iff_toNat_lt, toNat_bitZeroShl h0] at hlt hpos
  have hpow : 2 ^ (g.maxObjectSc.toNatClampNeg % 64) ≤ 2 ^ 31 := by
    apply Nat.pow_le_pow_right (by decide)
    rw [Int32.toNatClampNeg]
    omega
  have hnum : 0 < p.numObjects.toNat := by simpa using hpos
  exact ⟨he ▸ le_size_prepareProps p₀, hlt.trans_le hpow, hnum⟩

/-- With size-classes of at most 31 all draws of a run are in range. -/
theorem Reachable.inRange (hs : Reachable g R s) (h0 : 0 ≤ g.maxObjectSc.toInt)
    (h31 : g.maxObjectSc.toInt ≤ 31) (i : Nat) : ∀ p ∈ drawsOf i s.log, p.InRange := by
  induction hs with
  | start => exact nofun
  | @step s s' j hs hj h ih =>
    have hm := step_move h
    by_cases hij : i = j
    case neg =>
      rw [hm.drawsOf_of_ne hij]
      exact ih
    subst hij
    by_cases hl : (s.threads i).pc = .looping
    · cases hm with
      | create p₀ p rand c cache k hpc hr hp he hlt hz hb =>
        have hnew := inRange_newDescriptor he hb h0 h31
        simp only [Sys.emit_log, Sys.put_log, Sys.putClass_log, drawsOf, if_true]
        intro p' hp'
        obtain hp' | hp' := List.mem_append.mp hp'
        · exact ih p' hp'
        · obtain rfl := List.mem_singleton.mp hp'
          simpa [newDescriptor] using hnew
      | _ => simp_all
    · by_cases ha : (s.threads i).pc = .accounting
      · rw [(step_accounting ha h).2.2]
        exact ih
      · rw [(hm.clock_frame hl ha).2.2.2]
        exact ih

/-- A turn that ends no quantum fills it further. -/
theorem Reachable.timeCounter_lt (hs : Reachable g R s) (hg : g.HasQuantum)
    (h0 : 0 ≤ g.maxObjectSc.toInt) (h31 : g.maxObjectSc.toInt ≤ 31)
    (ha : (s.threads i).pc = .accounting) :
    (s.threads i).timeCounter.toNat < g.timeQuantum.toNat ∧
      (s.threads i).timeCounter.toNat < ((s.threads i).timeCounter +
        (s.threads i).sz * (s.threads i).numObjects.toUInt64).toNat := by
  obtain ⟨done, hps, hclock⟩ := (hs.clocked i).inside (by rw [ha]; rfl)
  have hrange := hs.inRange h0 h31 i
  rw [hps] at hrange
  have hlevel := (shows_run hg fun p hp ↦ hrange p (List.mem_append_left _ hp)).timeCounter
  have hlt := level_lt hg.pos (done.map Draw.bytes)
  have hq := hg.lt
  have htc : (s.threads i).timeCounter = (Clock.run g done).timeCounter :=
    congrArg Clock.timeCounter hclock
  have hdraw := hrange (s.threads i).draw (List.mem_append_right _ List.mem_cons_self)
  have hmul : ((s.threads i).sz * (s.threads i).numObjects.toUInt64).toNat =
      (s.threads i).draw.bytes := hdraw.toNat_mul
  have hge := hdraw.le_bytes
  have hbytes := hdraw.bytes_lt
  rw [gaugeOf] at hlevel
  rw [UInt64.toNat_add, hmul, htc, hlevel]
  constructor
  · exact hlt
  · rw [Nat.mod_eq_of_lt (by omega)]
    omega

private theorem runs_mul_le (hq : g.HasQuantum) (hps : ∀ p ∈ ps, p.InRange) :
    (Clock.run g ps).runs * g.timeQuantum.toNat ≤ (ps.map Draw.bytes).sum := by
  have hsum := ticks_mul_add_level_le g.timeQuantum.toNat (ps.map Draw.bytes)
  rw [(shows_run hq hps).runs, gaugeOf]
  omega

/-- In every run a thread has allocated a quantum for each advance of its clock. -/
theorem Reachable.runs_mul_quantum_le (hs : Reachable g R s) (hq : g.HasQuantum)
    (h0 : 0 ≤ g.maxObjectSc.toInt) (h31 : g.maxObjectSc.toInt ≤ 31) (i : Nat) :
    (s.threads i).runs * g.timeQuantum.toNat ≤ ((drawsOf i s.log).map Draw.bytes).sum := by
  have hrange := hs.inRange h0 h31 i
  cases hp : (s.threads i).pc.inQuantum with
  | false =>
    have hruns : (s.threads i).runs = _ := congrArg Clock.runs ((hs.clocked i).between hp)
    rw [hruns]
    exact runs_mul_le hq hrange
  | true =>
    obtain ⟨done, hps, hclock⟩ := (hs.clocked i).inside hp
    have hruns : (s.threads i).runs = (Clock.run g done).runs := congrArg Clock.runs hclock
    rw [hps] at hrange ⊢
    have hle := runs_mul_le hq fun p hp ↦ hrange p (List.mem_append_left _ hp)
    rw [hruns, List.map_append, List.sum_append]
    exact Nat.le_add_right_of_le hle

end Runs

end Acdc
