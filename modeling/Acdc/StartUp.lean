import Acdc.Metadata
import Acdc.Params
import Mathlib.Data.UInt

/-!
# Metadata of the start-up

The requests of `run_acdc` and of `create_mutator_context`, for all threads, against the size
that `autodetect_metadata_parameters` computes for the heap (`src/main.c:148–157`). The buffers
are counted there with a division that truncates, and all the rest as one megabyte a thread.
-/

namespace Acdc

/-! ### Requests of the source -/

/-- `sizeof` of `src/acdc.h:175–178`. -/
def sizeofLClass : UInt64 := 16

/-- `sizeof` of `src/acdc.h:181–198`. -/
def sizeofMContext : UInt64 := 112

/-- `sizeof` of `src/acdc.h:108–121`. -/
def sizeofMStat : UInt64 := 96

/-- `sizeof (pthread_mutex_t)`. -/
def sizeofMutex : UInt64 := 40

/-- `src/acdc.c:175–181`. -/
def allocateHeapClass (maxLifetime : UInt32) : Request :=
  .callocMeta maxLifetime.toUInt64 sizeofLClass

/-- The requests of `create_mutator_context`, `src/acdc.c:186–234`. Three sums are of type
`int`. -/
def contextRequests (g : GOptions) : Except Stop (List Request) := do
  let lifetimes ← intResult (g.maxLiveness.toInt + 1)
  let sizeClasses ← intResult (g.maxObjectSc.toInt + 1)
  let maxLifetime ← intResult (g.maxLiveness.toInt + g.deallocationDelay.toInt)
  return [
    .callocMetaAligned 1 sizeofMContext 64,
    .callocMeta 1 sizeofMStat,
    .callocMeta lifetimes.toInt64.toUInt64 8,
    .callocMeta sizeClasses.toInt64.toUInt64 8,
    allocateHeapClass maxLifetime.toUInt32,
    allocateHeapClass g.maxLiveness.toUInt32,
    .mallocMetaAligned (64 * g.nodeBufferSize) 64,
    .mallocMetaAligned (64 * g.classBufferSize) 64,
    .callocMeta g.numThreads.toInt64.toUInt64 4]

/-- The requests of `run_acdc`, `src/acdc.c:640–673`. -/
def startUpRequests (g : GOptions) : Except Stop (List Request) := do
  let numThreads := g.numThreads.toInt64.toUInt64
  let context ← contextRequests g
  return [
    .mallocMeta (8 * numThreads),
    .mallocMeta (8 * numThreads),
    .mallocMeta (8 * numThreads),
    .callocMeta numThreads 8,
    .callocMeta numThreads sizeofMutex] ++ (List.replicate g.threads context).flatten

/-- The heap that is mapped at `start`; `src/metadata-allocator.c:68–70`. -/
def initMetadataHeap (o : GlobalOptions) (start : UInt64) (bytes : Memory) : MetadataHeap where
  start := start
  stop := start + o.metadataHeapSz * 2 ^ 20
  bumpPointer := start
  bytes := bytes

/-- All requests of the start-up are defined and served. -/
def StartsUp (g : GOptions) (h : MetadataHeap) : Prop :=
  ∃ rs h', startUpRequests g = .ok rs ∧ (serveAll rs h).2 = .ok h'

/-! ### Room for the requests -/

namespace GOptions

/-- The number of size classes, `max_object_sc`. -/
def sizeClasses (g : GOptions) : Nat := g.maxObjectSc.toNatClampNeg

/-- The bytes of the two buffers of a thread. -/
def bufferBytes (g : GOptions) : Nat :=
  (64 * g.nodeBufferSize).toNat + (64 * g.classBufferSize).toNat

/-- The bytes of the other chunks of a thread, with its entries of the shared arrays. -/
def bookkeepingBytes (g : GOptions) : Nat :=
  40 * g.life + 16 * g.delay + 8 * g.sizeClasses + 4 * g.threads + 575

/-- The part of the buffers that the division cuts off and the bookkeeping together take less
than a megabyte for each thread. -/
def SparesMegabytes (g : GOptions) : Prop :=
  g.threads * g.bufferBytes < 2 ^ 64 ∧
    g.threads * g.bufferBytes % 2 ^ 20 + g.threads * g.bookkeepingBytes + 75 < g.threads * 2 ^ 20

end GOptions

variable {g : GOptions} {rs : List Request} {h : MetadataHeap}

/-! ### Sequences of requests -/

/-- Requests that are all served have their chunks before the end of the heap. -/
theorem room_of_serveAll {h' : MetadataHeap} (hrs : ∀ r ∈ rs, r.Fits)
    (hh : h.bumpPointer.toNat < h.stop.toNat) (hs : (serveAll rs h).2 = .ok h') :
    h.bumpPointer.toNat + (rs.map Request.chunk).sum < h.stop.toNat := by
  induction rs generalizing h with
  | nil => exact hh
  | cons r rs ih =>
    rw [serveAll] at hs
    split at hs
    · next ptr h₁ hr =>
      have hserved := Request.served_of_serve (hrs r List.mem_cons_self) hr
      have hbump := hserved.bumpPointer
      have hlt : h₁.bumpPointer.toNat < h₁.stop.toNat := by
        rw [hserved.stop]
        exact hserved.lt
      have hroom := ih (fun r hr ↦ hrs r (List.mem_cons_of_mem _ hr)) hlt hs
      rw [hserved.stop] at hroom
      rw [List.map_cons, List.sum_cons]
      omega
    · cases hs

/-- Requests are all served if their chunks lie before the end of the heap. -/
theorem serveAll_of_room (hrs : ∀ r ∈ rs, r.Fits)
    (hsize : ∀ r ∈ rs, r.clears = true → r.size < 2 ^ 31)
    (hroom : h.bumpPointer.toNat + (rs.map Request.chunk).sum < h.stop.toNat) :
    ∃ h', (serveAll rs h).2 = .ok h' := by
  induction rs generalizing h with
  | nil => exact ⟨h, rfl⟩
  | cons r rs ih =>
    rw [List.map_cons, List.sum_cons] at hroom
    have hfirst : h.bumpPointer.toNat + r.chunk < h.stop.toNat := by omega
    obtain ⟨ptr, h₁, hr, hserved, -⟩ := Request.serve_of_room (hrs r List.mem_cons_self)
      (hsize r List.mem_cons_self) hfirst
    have hbump := hserved.bumpPointer
    have hstop := hserved.stop
    rw [serveAll, hr]
    apply ih (fun r hr ↦ hrs r (List.mem_cons_of_mem _ hr))
      fun r hr ↦ hsize r (List.mem_cons_of_mem _ hr)
    rw [hstop]
    omega

/-! ### The requests of the start-up -/

/-- The domain of the options. -/
structure GOptions.Positive (g : GOptions) : Prop where
  numThreads : 1 ≤ g.numThreads.toInt
  maxLiveness : 1 ≤ g.maxLiveness.toInt
  deallocationDelay : 0 ≤ g.deallocationDelay.toInt
  maxObjectSc : 1 ≤ g.maxObjectSc.toInt

/-- The sums of `create_mutator_context` do not overflow. -/
structure GOptions.FitsSums (g : GOptions) : Prop where
  life : g.life + 1 < 2 ^ 31
  sizeClasses : g.sizeClasses + 1 < 2 ^ 31
  wheel : g.life + g.delay < 2 ^ 31

private theorem toInt_eq (hg : g.Positive) :
    g.numThreads.toInt = g.threads ∧ g.maxLiveness.toInt = g.life ∧
      g.deallocationDelay.toInt = g.delay ∧ g.maxObjectSc.toInt = g.sizeClasses := by
  have hn := hg.numThreads
  have hM := hg.maxLiveness
  have hD := hg.deallocationDelay
  have hS := hg.maxObjectSc
  simp only [GOptions.threads, GOptions.life, GOptions.delay, GOptions.sizeClasses,
    Int32.toNatClampNeg]
  omega

private theorem toInt_ofInt {k : Nat} (hk : k < 2 ^ 31) : (Int32.ofInt k).toInt = k :=
  Int32.toInt_ofInt_of_le (by omega) (by omega)

private theorem fitsSums_of_contextRequests (hg : g.Positive)
    (hrs : contextRequests g = .ok rs) : g.FitsSums := by
  obtain ⟨-, hM, hD, hS⟩ := toInt_eq hg
  rw [contextRequests, hM, hD, hS] at hrs
  cases h₁ : intResult (g.life + 1) with
  | error e => rw [h₁] at hrs; cases hrs
  | ok x =>
    cases h₂ : intResult (g.sizeClasses + 1) with
    | error e => rw [h₁, h₂] at hrs; cases hrs
    | ok y =>
      cases h₃ : intResult (g.life + g.delay) with
      | error e => rw [h₁, h₂, h₃] at hrs; cases hrs
      | ok z =>
        have hx := (fits_of_intResult h₁).2
        have hy := (fits_of_intResult h₂).2
        have hz := (fits_of_intResult h₃).2
        exact ⟨by omega, by omega, by omega⟩

private theorem fits_of_size {r : Request} (ha : r.alignment = 16 ∨ r.alignment = 64)
    (hs : r.size + 63 < 2 ^ 64) : r.Fits := by
  cases ha with
  | inl ha =>
    have h16 : r.alignment.toNat = 16 := congrArg UInt64.toNat ha
    exact ⟨⟨4, h16⟩, by omega⟩
  | inr ha =>
    have h64 : r.alignment.toNat = 64 := congrArg UInt64.toNat ha
    exact ⟨⟨6, h64⟩, by omega⟩

theorem fitsSums_of_startUpRequests (hg : g.Positive)
    (hrs : startUpRequests g = .ok rs) : g.FitsSums := by
  cases hc : contextRequests g with
  | error e => rw [startUpRequests, hc] at hrs; cases hrs
  | ok rs => exact fitsSums_of_contextRequests hg hc

/-- Requests for one thread, with the chunks that they take. -/
theorem exists_contextRequests (hg : g.Positive) (hfit : g.FitsSums) :
    ∃ rs, contextRequests g = .ok rs ∧ (∀ r ∈ rs, r.Fits) ∧
      (∀ r ∈ rs, r.clears = true → r.size ≤ g.bookkeepingBytes) ∧
      (rs.map Request.chunk).sum + 72 = g.bufferBytes + g.bookkeepingBytes := by
  obtain ⟨hn, hM, hD, hS⟩ := toInt_eq hg
  obtain ⟨hfit₁, hfit₂, hfit₃⟩ := hfit
  have hlt := hn ▸ g.numThreads.toInt_lt
  have h₁ : (Int32.ofInt (g.life + 1)).toInt64.toUInt64.toNat = g.life + 1 :=
    toNat_toUInt64 (toInt_ofInt hfit₁)
  have h₂ : (Int32.ofInt (g.sizeClasses + 1)).toInt64.toUInt64.toNat = g.sizeClasses + 1 :=
    toNat_toUInt64 (toInt_ofInt hfit₂)
  have h₃ : (Int32.ofInt (g.life + g.delay)).toUInt32.toNat = g.life + g.delay := by
    have hv : (Int32.ofInt (g.life + g.delay)).toInt = (g.life + g.delay : Nat) :=
      toInt_ofInt hfit₃
    rw [toNat_toUInt32 (by omega), hv, Int.toNat_natCast]
  have h₄ : g.maxLiveness.toUInt32.toNat = g.life := by
    rw [toNat_toUInt32 (by omega), hM, Int.toNat_natCast]
  have h₅ := toNat_toUInt64 hn
  have hnode := UInt64.toNat_mul 64 g.nodeBufferSize
  have hclass := UInt64.toNat_mul 64 g.classBufferSize
  simp only [UInt64.reduceToNat] at hnode hclass
  rw [contextRequests, hM, hD, hS, intResult_of_fits ⟨by omega, by omega⟩,
    intResult_of_fits ⟨by omega, by omega⟩, intResult_of_fits ⟨by omega, by omega⟩]
  refine ⟨_, rfl, ?_, ?_, ?_⟩
  · simp only [List.forall_mem_cons, List.not_mem_nil, false_imp_iff, implies_true, and_true]
    and_intros <;> apply fits_of_size <;>
      simp only [allocateHeapClass, Request.alignment, Request.size, UInt32.toNat_toUInt64,
        sizeofLClass, sizeofMStat, sizeofMContext, or_true, true_or, UInt64.reduceToNat,
        h₁, h₂, h₃, h₄, h₅] <;> omega
  · simp only [List.forall_mem_cons, List.not_mem_nil, false_imp_iff, implies_true, and_true,
      Bool.false_eq_true, true_and, forall_const, allocateHeapClass, Request.clears,
      Request.size, UInt32.toNat_toUInt64, sizeofLClass, sizeofMStat, sizeofMContext,
      GOptions.bookkeepingBytes, UInt64.reduceToNat, h₁, h₂, h₃, h₄, h₅]
    omega
  · simp only [List.map_cons, List.map_nil, List.sum_cons, List.sum_nil, allocateHeapClass,
      Request.chunk, Request.alignment, Request.size, UInt32.toNat_toUInt64, sizeofLClass,
      sizeofMStat, sizeofMContext, GOptions.bookkeepingBytes, GOptions.bufferBytes,
      UInt64.reduceToNat, h₁, h₂, h₃, h₄, h₅]
    omega

/-- The requests of the start-up, with the chunks that they take. -/
theorem exists_startUpRequests (hg : g.Positive) (hfit : g.FitsSums) :
    ∃ rs, startUpRequests g = .ok rs ∧ (∀ r ∈ rs, r.Fits) ∧
      (∀ r ∈ rs, r.clears = true → r.size ≤ g.bookkeepingBytes ∨ r.size ≤ 40 * g.threads) ∧
      (rs.map Request.chunk).sum =
        g.threads * g.bufferBytes + g.threads * g.bookkeepingBytes + 75 := by
  obtain ⟨rs, hrs, hfits, hsize, hsum⟩ := exists_contextRequests hg hfit
  have hn := toNat_toUInt64 (toInt_eq hg).1
  have hlt := g.threads_lt
  have hprod := UInt64.toNat_mul 8 g.numThreads.toInt64.toUInt64
  simp only [UInt64.reduceToNat, hn] at hprod
  rw [Nat.mod_eq_of_lt (by omega)] at hprod
  have hmem (r : Request) (hr : r ∈ (List.replicate g.threads rs).flatten) : r ∈ rs := by
    obtain ⟨l, hl, hr⟩ := List.mem_flatten.mp hr
    rwa [List.eq_of_mem_replicate hl] at hr
  rw [startUpRequests, hrs]
  refine ⟨_, rfl, ?_, ?_, ?_⟩
  · simp only [List.forall_mem_append, List.forall_mem_cons, List.not_mem_nil, false_imp_iff,
      implies_true, and_true]
    refine ⟨?_, fun r hr ↦ hfits r (hmem r hr)⟩
    and_intros <;> apply fits_of_size <;>
      simp only [Request.alignment, Request.size, sizeofMutex, true_or, hprod, hn,
        UInt64.reduceToNat] <;>
      omega
  · simp only [List.forall_mem_append, List.forall_mem_cons, List.not_mem_nil, false_imp_iff,
      implies_true, and_true]
    refine ⟨?_, fun r hr hc ↦ .inl (hsize r (hmem r hr) hc)⟩
    simp only [Request.clears, Request.size, sizeofMutex, Bool.false_eq_true, hn,
      UInt64.reduceToNat]
    omega
  · have hthreads : g.threads * (rs.map Request.chunk).sum + 72 * g.threads =
        g.threads * g.bufferBytes + g.threads * g.bookkeepingBytes := by
      rw [Nat.mul_comm 72, ← Nat.mul_add, ← Nat.mul_add, hsum]
    simp only [List.map_append, List.map_cons, List.map_nil, List.sum_append, List.sum_cons,
      List.sum_nil, List.map_flatten, List.map_replicate, List.sum_flatten,
      List.sum_replicate_nat, Request.chunk, Request.alignment, Request.size, sizeofMutex, hprod,
      hn, UInt64.reduceToNat]
    omega

/-! ### The heap of the estimate -/

variable {estimate : GlobalOptions → Option (UInt64 × UInt64)} {o p : GlobalOptions}
  {start : UInt64}

private theorem metadataHeapSz_eq (hp : autodetectMetadataParameters estimate o = some p) :
    p.metadataHeapSz = p.numThreads.toInt64.toUInt64 +
      ((p.classBufferSize * 64 + p.nodeBufferSize * 64) * p.numThreads.toInt64.toUInt64) /
        (1024 * 1024) := by
  obtain ⟨_, -, rfl⟩ := Option.map_eq_some_iff.mp hp
  rfl

private theorem toNat_metadataHeapSz (hp : autodetectMetadataParameters estimate o = some p)
    (hg : p.Positive) :
    p.metadataHeapSz.toNat = p.threads + p.threads * p.bufferBytes % 2 ^ 64 / 2 ^ 20 := by
  have hn := toNat_toUInt64 (toInt_eq hg).1
  have hlt := p.toGOptions.threads_lt
  have hmega : (1024 * 1024 : UInt64).toNat = 2 ^ 20 := rfl
  have hbytes : ((p.classBufferSize * 64 + p.nodeBufferSize * 64) *
      p.numThreads.toInt64.toUInt64).toNat =
      p.threads * p.bufferBytes % 2 ^ 64 := by
    rw [UInt64.toNat_mul, hn, UInt64.toNat_add, Nat.mod_mul_mod, Nat.mul_comm, Nat.add_comm,
      UInt64.mul_comm p.nodeBufferSize, UInt64.mul_comm p.classBufferSize]
    rfl
  have hmod := Nat.mod_lt (p.threads * p.bufferBytes) (show 0 < 2 ^ 64 by decide)
  rw [metadataHeapSz_eq hp, UInt64.toNat_add, UInt64.toNat_div, hmega, hbytes, hn]
  exact Nat.mod_eq_of_lt (by omega)

private theorem startsUp_iff (hp : autodetectMetadataParameters estimate o = some p)
    (hg : p.Positive) (bytes : Memory)
    (hmap : start.toNat + p.metadataHeapSz.toNat * 2 ^ 20 < 2 ^ 64) :
    StartsUp p.toGOptions (initMetadataHeap p start bytes) ↔ p.SparesMegabytes := by
  have hsz := toNat_metadataHeapSz hp hg
  have hstop : (initMetadataHeap p start bytes).stop.toNat =
      start.toNat + p.metadataHeapSz.toNat * 2 ^ 20 := by
    have hmega : (2 ^ 20 : UInt64).toNat = 2 ^ 20 := rfl
    rw [initMetadataHeap, UInt64.toNat_add, UInt64.toNat_mul, hmega,
      Nat.mod_eq_of_lt (show p.metadataHeapSz.toNat * 2 ^ 20 < 2 ^ 64 by omega)]
    exact Nat.mod_eq_of_lt hmap
  have hpos : 1 ≤ p.threads := by
    have hn := hg.numThreads
    have htoInt := (toInt_eq hg).1
    omega
  constructor
  · intro ⟨rs, h', hrs, hs⟩
    have hfit := fitsSums_of_startUpRequests hg hrs
    obtain ⟨rs', hrs', hfits, -, hsum⟩ := exists_startUpRequests hg hfit
    obtain rfl : rs' = rs := Except.ok.inj (hrs'.symm.trans hrs)
    have hroom := room_of_serveAll hfits (by rw [hstop]; simp only [initMetadataHeap]; omega) hs
    rw [hsum, hstop] at hroom
    simp only [initMetadataHeap] at hroom
    constructor <;> omega
  · intro ⟨hlt, hspare⟩
    have hthreads : p.threads * p.bookkeepingBytes < p.threads * 2 ^ 20 := by omega
    have hbook : p.bookkeepingBytes < 2 ^ 20 := Nat.lt_of_mul_lt_mul_left hthreads
    have hbytes : p.bookkeepingBytes = 40 * p.life + 16 * p.delay + 8 * p.sizeClasses +
      4 * p.threads + 575 := rfl
    obtain ⟨rs, hrs, hfits, hsize, hsum⟩ := exists_startUpRequests hg
      ⟨by omega, by omega, by omega⟩
    have hserved := serveAll_of_room (h := initMetadataHeap p start bytes) hfits
      (fun r hr hc ↦ by have hr := hsize r hr hc; omega) (by
        rw [hsum, hstop, hsz]
        simp only [initMetadataHeap]
        omega)
    obtain ⟨h', hs⟩ := hserved
    exact ⟨rs, h', hrs, hs⟩

/-- A heap of the estimated size serves the start-up exactly if a megabyte for each thread holds
the bookkeeping and what the division cuts off the buffers. -/
theorem startsUp_iff_sparesMegabytes (hp : autodetectMetadataParameters estimate o = some p)
    (hg : p.Positive) (bytes : Memory)
    (hmap : start.toNat + p.metadataHeapSz.toNat * 2 ^ 20 < 2 ^ 64) :
    StartsUp p.toGOptions (initMetadataHeap p start bytes) ↔ p.SparesMegabytes :=
  startsUp_iff hp hg bytes hmap

/-- The buffers of the default options for one thread. -/
theorem startsUp_iff_sparesMegabytes_default :
    ∃ p, autodetectMetadataParameters (fun _ ↦ some (1212, 1212)) .setDefaultParams = some p ∧
      StartsUp p.toGOptions (initMetadataHeap p 4096 fun _ ↦ 0) := by
  let p : GlobalOptions :=
    { GlobalOptions.setDefaultParams with
      classBufferSize := 1212
      nodeBufferSize := 1212
      metadataHeapSz := 1 }
  have hp : autodetectMetadataParameters (fun _ ↦ some (1212, 1212)) .setDefaultParams =
    some p := by decide
  have hg : p.Positive := ⟨by decide, by decide, by decide, by decide⟩
  have hspare : p.SparesMegabytes := ⟨by decide, by decide⟩
  exact ⟨p, hp, (startsUp_iff_sparesMegabytes hp hg _ (by decide)).mpr hspare⟩

/-- Buffers for a quantum of 1769256 bytes end 256 bytes before the megabyte that the estimate
adds for the rest. -/
theorem not_forall_startsUp :
    ¬ ∀ (estimate : GlobalOptions → Option (UInt64 × UInt64)) (o p : GlobalOptions)
      (start : UInt64) (bytes : Memory), autodetectMetadataParameters estimate o = some p →
        p.Positive → 1 ≤ p.classBufferSize → 1 ≤ p.nodeBufferSize → start.toNat % 4096 = 0 →
          start.toNat + p.metadataHeapSz.toNat * 2 ^ 20 < 2 ^ 64 →
            StartsUp p.toGOptions (initMetadataHeap p start bytes) := by
  intro h
  let o : GlobalOptions := { GlobalOptions.setDefaultParams with timeQuantum := 1769256 }
  let p : GlobalOptions :=
    { o with
      classBufferSize := 8190
      nodeBufferSize := 8190
      metadataHeapSz := 1 }
  have hp : autodetectMetadataParameters (fun _ ↦ some (8190, 8190)) o = some p := by decide
  have hg : p.Positive := ⟨by decide, by decide, by decide, by decide⟩
  have hs := h _ o p 4096 (fun _ ↦ 0) hp hg (by decide) (by decide) (by decide) (by decide)
  have hspare := ((startsUp_iff hp hg _ (by decide)).mp hs).2
  exact absurd hspare (by decide)

end Acdc
