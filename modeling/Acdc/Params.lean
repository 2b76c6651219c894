import Acdc.Machine
import Acdc.Objects

/-!
# Checked options

`check_params` of `src/main.c:166–208`, which normalises the command line or exits. The
buffer sizes that `autodetect_metadata_parameters` estimates in floating point are a
parameter; the metadata heap is the integer formula of `src/main.c:148–157`. No integer
division of the worker threads is guarded by the check itself.
-/

namespace Acdc

/-- `src/acdc.h:61–64`. -/
inductive BenchmarkMode where
  | acdc
  | falseSharing
  deriving DecidableEq, Repr

/-- The whole record of `src/acdc.h:65–104`: also what only start-up and the reports read. -/
structure GlobalOptions extends GOptions where
  mode : BenchmarkMode
  metadataHeapSz : UInt64
  verbosity : Int32
  doBaselineRss : Int32
  deriving DecidableEq, Repr

/-- Defaults of `src/main.c:set_default_params`. -/
def GlobalOptions.setDefaultParams : GlobalOptions where
  toGOptions := GOptions.setDefaultParams
  mode := .acdc
  metadataHeapSz := 0
  verbosity := 0
  doBaselineRss := 0

/-- The sizes that a run needs, from an estimate of the class and node buffers that may
give up; `src/main.c:87–164`. -/
def autodetectMetadataParameters (estimate : GlobalOptions → Option (UInt64 × UInt64))
    (o : GlobalOptions) : Option GlobalOptions :=
  (estimate o).map fun (classBufferSize, nodeBufferSize) ↦
    let numThreads := o.numThreads.toInt64.toUInt64
    { o with
      classBufferSize := classBufferSize
      nodeBufferSize := nodeBufferSize
      metadataHeapSz := numThreads +
        ((classBufferSize * 64 + nodeBufferSize * 64) * numThreads) / (1024 * 1024) }

/-- The overrides of false-sharing mode; `src/main.c:178–184`. -/
def overrideMode (o : GlobalOptions) : GlobalOptions :=
  match o.mode with
  | .acdc => o
  | .falseSharing => { o with
      receivingThreadsRatio := 100
      sharedObjects := 1
      sharedObjectsRatio := 100
      accessLiveObjects := 0
      writeAccessRatio := 100 }

/-- The default of a negative time gap; `src/main.c:185`. -/
def defaultTimeGap (o : GlobalOptions) : GlobalOptions :=
  if o.maxTimeGap < 0 then { o with maxTimeGap := o.maxLiveness } else o

/-- The sizes are given all three or estimated; `src/main.c:193–207`. -/
def checkSizes (estimate : GlobalOptions → Option (UInt64 × UInt64)) (o : GlobalOptions) :
    Option GlobalOptions :=
  if o.metadataHeapSz = 0 ∨ o.nodeBufferSize = 0 ∨ o.classBufferSize = 0 then
    if o.metadataHeapSz + o.nodeBufferSize + o.classBufferSize ≠ 0 then none
    else autodetectMetadataParameters estimate o
  else some o

/-- The checked options, or none where the process exits; `src/main.c:166–208`. A minimal
size that is not below the maximal one is reported and accepted. -/
def checkParams (estimate : GlobalOptions → Option (UInt64 × UInt64)) (o : GlobalOptions) :
    Option GlobalOptions :=
  if o.listBasedRatio < 0 ∨ 100 < o.listBasedRatio then none
  else checkSizes estimate
    (defaultTimeGap (overrideMode { o with btreeBasedRatio := 100 - o.listBasedRatio }))

/-- The options that the threads read after the check in ACDC mode, for given sizes of the
buffers. -/
@[simps] def GOptions.checked (g : GOptions) (classBufferSize nodeBufferSize : UInt64) : GOptions :=
  { g with
    btreeBasedRatio := 100 - g.listBasedRatio
    maxTimeGap := if g.maxTimeGap < 0 then g.maxLiveness else g.maxTimeGap
    classBufferSize := classBufferSize
    nodeBufferSize := nodeBufferSize }

variable {estimate : GlobalOptions → Option (UInt64 × UInt64)} {o p : GlobalOptions}

/-- Only sizes are estimated. -/
theorem exists_of_checkSizes (h : checkSizes estimate o = some p) :
    ∃ c n, p.toGOptions = { o.toGOptions with classBufferSize := c, nodeBufferSize := n } := by
  unfold checkSizes at h
  split at h
  · split at h
    · cases h
    · obtain ⟨⟨c, n⟩, -, rfl⟩ := Option.map_eq_some_iff.mp h
      exact ⟨c, n, rfl⟩
  · cases h
    exact ⟨o.classBufferSize, o.nodeBufferSize, rfl⟩

/-- In ACDC mode the check keeps the options, but for the sizes, the ratio of the trees and a
negative time gap. -/
theorem exists_of_checkParams (hm : o.mode = .acdc) (h : checkParams estimate o = some p) :
    ∃ c n, p.toGOptions = o.toGOptions.checked c n := by
  unfold checkParams at h
  split at h
  · cases h
  · obtain ⟨c, n, hp⟩ := exists_of_checkSizes h
    refine ⟨c, n, ?_⟩
    rw [hp, defaultTimeGap, GOptions.checked]
    simp only [overrideMode, hm]
    split <;> rfl

/-- Options that are accepted with any estimate, since all their sizes are given. -/
def sizedOptions : GlobalOptions :=
  { GlobalOptions.setDefaultParams with
    metadataHeapSz := 1
    nodeBufferSize := 8
    classBufferSize := 8 }

end Acdc
