import Mathlib.Algebra.Group.Int.Defs
import Mathlib.Algebra.Group.Nat.Defs

/-!
# Global options

The options record of `src/acdc.h:65–104`, in the C types of its fields, with the defaults
of `src/main.c:set_default_params`. `int` options are `Int32`, `unsigned long` and
`size_t` options are `UInt64`. Counts that bound loops and arrays are read off as
natural numbers.
-/

namespace Acdc

/-- Why a thread takes no step: it waits at a barrier, it left its loop, the process
exits, the allocator returns no memory, a bound on a loop of the model is too small, or the
C code has no defined behaviour. -/
inductive Stop where
  | blocked
  | returned
  | assertion
  | nodeBufferOverflow
  | classBufferOverflow
  | objectTooSmall
  | outOfMemory
  | outOfFuel
  | undefined
  deriving DecidableEq, Repr

/-- The exact result of an operation is an `int`. -/
def FitsInt (z : Int) : Prop := -2 ^ 31 ≤ z ∧ z < 2 ^ 31

instance (z : Int) : Decidable (FitsInt z) := inferInstanceAs (Decidable (_ ∧ _))

/-- The `int` with a given value. An operation that overflows has no defined result. -/
def intResult (z : Int) : Except Stop Int32 :=
  if FitsInt z then .ok (Int32.ofInt z) else .error .undefined

theorem intResult_of_fits {z : Int} (hz : FitsInt z) : intResult z = .ok (.ofInt z) :=
  if_pos hz

theorem fits_of_intResult {z : Int} {x : Int32} (h : intResult z = .ok x) : FitsInt z := by
  rw [intResult] at h
  split at h
  · assumption
  · cases h

/-- An `int` that is not negative is converted to `unsigned int` without change. -/
theorem toNat_toUInt32 {x : Int32} (h : 0 ≤ x.toInt) :
    x.toUInt32.toNat = x.toInt.toNat :=
  Int32.toNat_toUInt32_of_le (Int32.le_iff_toInt_le.mpr h)

/-- An `int` that is not negative is converted to `size_t` without change. -/
theorem toNat_toUInt64 {x : Int32} {k : Nat} (hx : x.toInt = k) :
    x.toInt64.toUInt64.toNat = k := by
  have hle : 0 ≤ x.toInt64 := by
    rw [Int64.le_iff_toInt_le, Int32.toInt_toInt64, hx]
    exact Int.natCast_nonneg k
  rw [Int64.toNat_toUInt64_of_le hle, Int64.toNatClampNeg, Int32.toInt_toInt64, hx,
    Int.toNat_natCast]

/-- The `global_options` that the worker threads read; `src/acdc.h:65–104`. -/
structure GOptions where
  numThreads : Int32
  timeQuantum : UInt64
  benchmarkDuration : Int32
  seed : Int32
  minLiveness : Int32
  maxLiveness : Int32
  fixedNumberOfObjects : Int32
  deallocationDelay : Int32
  maxTimeGap : Int32
  minObjectSc : Int32
  maxObjectSc : Int32
  listBasedRatio : Int32
  btreeBasedRatio : Int32
  nodeBufferSize : UInt64
  classBufferSize : UInt64
  writeIterations : Int32
  accessLiveObjects : Int32
  writeAccessRatio : Int32
  sharedObjects : Int32
  sharedObjectsRatio : Int32
  receivingThreadsRatio : Int32
  useCompactAllocation : Int32
  deriving DecidableEq, Repr

namespace GOptions

/-- Defaults of `src/main.c:set_default_params`. -/
def setDefaultParams : GOptions where
  numThreads := 1
  timeQuantum := 262144
  benchmarkDuration := 100
  seed := 1
  minLiveness := 1
  maxLiveness := 10
  fixedNumberOfObjects := 0
  deallocationDelay := 0
  maxTimeGap := -1
  minObjectSc := 4
  maxObjectSc := 8
  listBasedRatio := 100
  btreeBasedRatio := 0
  nodeBufferSize := 0
  classBufferSize := 0
  writeIterations := 1
  accessLiveObjects := 0
  writeAccessRatio := 10
  sharedObjects := 0
  sharedObjectsRatio := 0
  receivingThreadsRatio := 100
  useCompactAllocation := 0

/-- Number of threads, `num_threads`. -/
def threads (g : GOptions) : Nat := g.numThreads.toNatClampNeg

/-- Number of lifetimes, `max_liveness`. -/
def life (g : GOptions) : Nat := g.maxLiveness.toNatClampNeg

/-- Deallocation delay in ticks, `deallocation_delay`. -/
def delay (g : GOptions) : Nat := g.deallocationDelay.toNatClampNeg

/-- Value of the `int` sum `max_liveness + deallocation_delay`, the modulus of every
heap-class index. -/
def wheelSize (g : GOptions) : Nat := (g.maxLiveness.toInt + g.deallocationDelay.toInt).toNat

/-- Thread counts fit an `int`. -/
theorem threads_lt (g : GOptions) : g.threads < 2 ^ 31 := by
  have := g.numThreads.toInt_lt
  simp only [threads, Int32.toNatClampNeg]
  omega

/-- Lifetimes fit an `int`. -/
theorem life_lt (g : GOptions) : g.life < 2 ^ 31 := by
  have := g.maxLiveness.toInt_lt
  simp only [life, Int32.toNatClampNeg]
  omega

/-- A positive `max_liveness` is its natural reading. -/
theorem toInt_maxLiveness {g : GOptions} (hM : 0 < g.maxLiveness.toInt) :
    g.maxLiveness.toInt = g.life := by
  simp only [life, Int32.toNatClampNeg]
  omega

/-- A nonnegative `deallocation_delay` is its natural reading. -/
theorem toInt_deallocationDelay {g : GOptions} (hD : 0 ≤ g.deallocationDelay.toInt) :
    g.deallocationDelay.toInt = g.delay := by
  simp only [delay, Int32.toNatClampNeg]
  omega

/-- The wheel has one entry for each lifetime and each tick of delay. -/
theorem wheelSize_eq {g : GOptions} (hM : 0 < g.maxLiveness.toInt)
    (hD : 0 ≤ g.deallocationDelay.toInt) : g.wheelSize = g.life + g.delay := by
  rw [wheelSize, toInt_maxLiveness hM, toInt_deallocationDelay hD]
  omega

/-- There is an entry exactly for a positive `max_liveness`. -/
theorem life_pos_iff {g : GOptions} : 0 < g.life ↔ 0 < g.maxLiveness.toInt := by
  simp only [life, Int32.toNatClampNeg]
  omega

/-- The modulus of the indices is positive if there are lifetimes. -/
def HasWheel (g : GOptions) : Prop := 0 < g.life → 0 < g.wheelSize

/-- Only a negative `deallocation_delay` takes the wheel away. -/
theorem hasWheel {g : GOptions} (hD : 0 ≤ g.deallocationDelay.toInt) : g.HasWheel := by
  intro hM
  rw [wheelSize_eq (life_pos_iff.mp hM) hD]
  omega

end GOptions
end Acdc
