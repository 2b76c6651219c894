import Acdc.Base.Arena

/-!
# Metadata allocator

The bump allocator of `src/metadata-allocator.c:33–118`, from which the start-up takes the
contexts, arrays and buffers of the threads. Nothing is given back. A chunk exceeds its block by
the alignment less one, and the end of the heap is tested after the bump pointer has moved.
Sizes are of type `size_t` and wrap; a pointer that leaves the address space is undefined.
-/

namespace Acdc

open Arena

/-- How a request of metadata ends the process, or what it leaves undefined. -/
inductive MetadataStop where
  | outOfSpace
  | undefined
  deriving DecidableEq, Repr

/-- The three pointers of the heap, and the memory. -/
structure MetadataHeap where
  start : UInt64
  stop : UInt64
  bumpPointer : UInt64
  bytes : Memory

/-- `src/metadata-allocator.c:33–37`. -/
def alignAddress (ptr alignment : UInt64) : UInt64 :=
  (ptr + (alignment - 1)) &&& ~~~(alignment - 1)

/-- `src/metadata-allocator.c:83–91`. -/
def getChunk (size : UInt64) (h : MetadataHeap) : Except MetadataStop (UInt64 × MetadataHeap) :=
  if 2 ^ 64 ≤ h.bumpPointer.toNat + size.toNat then .error .undefined
  else
    let bumpPointer := h.bumpPointer + size
    if h.stop ≤ bumpPointer then .error .outOfSpace
    else .ok (h.bumpPointer, { h with bumpPointer := bumpPointer })

/-- `src/metadata-allocator.c:93–96`. -/
def mallocMeta (size : UInt64) (h : MetadataHeap) :
    Except MetadataStop (UInt64 × MetadataHeap) := do
  let (chunk, h) ← getChunk (size + 15) h
  return (alignAddress chunk 16, h)

/-- `src/metadata-allocator.c:107–109`. -/
def mallocMetaAligned (size alignment : UInt64) (h : MetadataHeap) :
    Except MetadataStop (UInt64 × MetadataHeap) := do
  let (chunk, h) ← getChunk (size + alignment - 1) h
  return (alignAddress chunk alignment, h)

/-- One turn of the loop over the bytes of a block. Its counter is an `int`. -/
def clearByte (ptr : UInt64) (bytes : Memory) (i : Nat) : Except MetadataStop Memory :=
  if i + 1 < 2 ^ 31 then .ok (Function.update bytes (ptr + UInt64.ofNat i).toNat 0)
  else .error .undefined

/-- `src/metadata-allocator.c:100–103,113–116`. -/
def clear (ptr size : UInt64) (bytes : Memory) : Except MetadataStop Memory :=
  (List.range size.toNat).foldlM (clearByte ptr) bytes

/-- `src/metadata-allocator.c:98–105`. -/
def callocMeta (nelem size : UInt64) (h : MetadataHeap) :
    Except MetadataStop (UInt64 × MetadataHeap) := do
  let (ptr, h) ← mallocMeta (nelem * size) h
  let bytes ← clear ptr (nelem * size) h.bytes
  return (ptr, { h with bytes := bytes })

/-- `src/metadata-allocator.c:111–118`. -/
def callocMetaAligned (nelem size alignment : UInt64) (h : MetadataHeap) :
    Except MetadataStop (UInt64 × MetadataHeap) := do
  let (ptr, h) ← mallocMetaAligned (nelem * size) alignment h
  let bytes ← clear ptr (nelem * size) h.bytes
  return (ptr, { h with bytes := bytes })

/-! ### Requests -/

/-- A call of the allocator. -/
inductive Request where
  | mallocMeta (size : UInt64)
  | callocMeta (nelem size : UInt64)
  | mallocMetaAligned (size alignment : UInt64)
  | callocMetaAligned (nelem size alignment : UInt64)
  deriving DecidableEq, Repr

namespace Request

/-- The call. -/
def serve : Request → MetadataHeap → Except MetadataStop (UInt64 × MetadataHeap)
  | .mallocMeta size => Acdc.mallocMeta size
  | .callocMeta nelem size => Acdc.callocMeta nelem size
  | .mallocMetaAligned size alignment => Acdc.mallocMetaAligned size alignment
  | .callocMetaAligned nelem size alignment => Acdc.callocMetaAligned nelem size alignment

/-- The bytes of the block. -/
def size : Request → Nat
  | .mallocMeta size | .mallocMetaAligned size _ => size.toNat
  | .callocMeta nelem size | .callocMetaAligned nelem size _ => nelem.toNat * size.toNat

/-- The alignment of the block. -/
def alignment : Request → UInt64
  | .mallocMeta _ | .callocMeta _ _ => 16
  | .mallocMetaAligned _ alignment | .callocMetaAligned _ _ alignment => alignment

/-- Whether the block is cleared. -/
def clears : Request → Bool
  | .mallocMeta _ | .mallocMetaAligned _ _ => false
  | .callocMeta _ _ | .callocMetaAligned _ _ _ => true

/-- The alignment is a power of two, and the size of the chunk does not wrap. -/
structure Fits (r : Request) : Prop where
  power : ∃ k, r.alignment.toNat = 2 ^ k
  chunk : r.size + (r.alignment.toNat - 1) < 2 ^ 64

/-- The block at an address. -/
def block (r : Request) (ptr : UInt64) : Region := ⟨ptr.toNat, r.size⟩

end Request

/-- Requests one after the other: what they are served with before the process ends, and whether
it does. -/
def serveAll : List Request → MetadataHeap →
    List (Request × UInt64) × Except MetadataStop MetadataHeap
  | [], h => ([], .ok h)
  | r :: rs, h =>
    match r.serve h with
    | .ok (ptr, h) => ((r, ptr) :: (serveAll rs h).1, (serveAll rs h).2)
    | .error e => ([], .error e)

variable {h : MetadataHeap} {ptr alignment : UInt64} {bytes : Memory} {k : Nat}

/-! ### One request -/

/-- The address is rounded up to the alignment. -/
theorem toNat_alignAddress (ha : alignment.toNat = 2 ^ k)
    (hp : ptr.toNat + (alignment.toNat - 1) < 2 ^ 64) :
    (alignAddress ptr alignment).toNat = alignUp ptr.toNat alignment.toNat := by
  have hpos : 0 < 2 ^ k := Nat.two_pow_pos k
  have hone : (alignment - 1).toNat = alignment.toNat - 1 := by
    rw [UInt64.toNat_sub_of_le _ _ (by rw [UInt64.le_iff_toNat_le, ha, UInt64.toNat_one]; omega),
      UInt64.toNat_one]
  rw [alignAddress, toNat_mask _ ha, UInt64.toNat_add, hone, Nat.mod_eq_of_lt hp, alignUp]

private theorem foldlM_clearByte (bytes : Memory) {n : Nat} (hn : n < 2 ^ 31)
    (hp : ptr.toNat + n ≤ 2 ^ 64) : (List.range n).foldlM (clearByte ptr) bytes =
      .ok fun x ↦ if Region.Has ⟨ptr.toNat, n⟩ x then 0 else bytes x := by
  induction n with
  | zero =>
    have hno (x : Nat) : ¬ Region.Has ⟨ptr.toNat, 0⟩ x := by
      simp only [Region.Has]
      omega
    simp only [List.range_zero, List.foldlM_nil, if_neg (hno _)]
    rfl
  | succ n ih =>
    have haddr : (ptr + UInt64.ofNat n).toNat = ptr.toNat + n := by
      rw [UInt64.toNat_add, UInt64.toNat_ofNat_of_lt' (show n < 2 ^ 64 by omega)]
      exact Nat.mod_eq_of_lt (by omega)
    rw [List.range_succ, List.foldlM_append, ih (by omega) (by omega)]
    simp only [bind, Except.bind, List.foldlM_cons, List.foldlM_nil, clearByte, if_pos hn, pure,
      Except.pure, haddr]
    congr 1
    ext x
    by_cases hx : x = ptr.toNat + n
    · subst hx
      have hin : Region.Has ⟨ptr.toNat, n + 1⟩ (ptr.toNat + n) :=
        ⟨Nat.le_add_right _ _, Nat.lt_succ_self _⟩
      rw [Function.update_self, if_pos hin]
    · have hiff : Region.Has ⟨ptr.toNat, n + 1⟩ x ↔ Region.Has ⟨ptr.toNat, n⟩ x := by
        simp only [Region.Has]
        omega
      rw [Function.update_of_ne hx, if_congr hiff rfl rfl]

/-- A chunk is served as long as its end lies before the end of the heap. -/
theorem getChunk_eq {size : UInt64} {n : Nat} (hn : size.toNat = n) :
    getChunk size h =
      if 2 ^ 64 ≤ h.bumpPointer.toNat + n then .error .undefined
      else if h.stop.toNat ≤ h.bumpPointer.toNat + n then .error .outOfSpace
      else .ok (h.bumpPointer, { h with bumpPointer := h.bumpPointer + size }) := by
  subst hn
  rw [getChunk]
  by_cases hw : 2 ^ 64 ≤ h.bumpPointer.toNat + size.toNat
  · rw [if_pos hw, if_pos hw]
  · have hiff : h.stop ≤ h.bumpPointer + size ↔
        h.stop.toNat ≤ h.bumpPointer.toNat + size.toNat := by
      rw [UInt64.le_iff_toNat_le, UInt64.toNat_add, Nat.mod_eq_of_lt (by omega)]
    rw [if_neg hw, if_neg hw]
    dsimp only
    rw [if_congr hiff rfl rfl]

namespace Request

variable {r : Request}

/-- The size of the chunk of a request. -/
def chunk (r : Request) : Nat := r.size + (r.alignment.toNat - 1)

/-- What a request does with its chunk. -/
def finish (r : Request) (chunk : UInt64) (h : MetadataHeap) :
    Except MetadataStop (UInt64 × MetadataHeap) := do
  let ptr := alignAddress chunk r.alignment
  if r.clears then
    let bytes ← clear ptr (UInt64.ofNat r.size) h.bytes
    return (ptr, { h with bytes := bytes })
  else return (ptr, h)

private theorem toNat_alignment_pos (hr : r.Fits) : 0 < r.alignment.toNat := by
  obtain ⟨k, hk⟩ := hr.power
  rw [hk]
  exact Nat.two_pow_pos k

private theorem ofNat_mul {nelem size : UInt64} :
    UInt64.ofNat (nelem.toNat * size.toNat) = nelem * size := by
  rw [UInt64.ofNat_mul, UInt64.ofNat_toNat, UInt64.ofNat_toNat]

/-- All four kinds of requests take a chunk and align its start. -/
theorem serve_eq (r : Request) (h : MetadataHeap) :
    r.serve h = (getChunk (UInt64.ofNat r.size + (r.alignment - 1)) h).bind
      fun (chunk, h) ↦ r.finish chunk h := by
  cases r with
  | mallocMeta size =>
    have h15 : (16 - 1 : UInt64) = 15 := by decide
    simp only [serve, Acdc.mallocMeta, Request.size, alignment, finish, clears, UInt64.ofNat_toNat,
      h15]
    cases getChunk (size + 15) h <;> rfl
  | callocMeta nelem size =>
    have h15 : (16 - 1 : UInt64) = 15 := by decide
    simp only [serve, Acdc.callocMeta, Acdc.mallocMeta, Request.size, alignment, finish, clears,
      ofNat_mul, h15]
    cases getChunk (nelem * size + 15) h <;> rfl
  | mallocMetaAligned size alignment =>
    simp only [serve, Acdc.mallocMetaAligned, Request.size, Request.alignment, finish, clears,
      UInt64.ofNat_toNat, UInt64.sub_eq_add_neg, UInt64.add_assoc]
    cases getChunk (size + (alignment + -1)) h <;> rfl
  | callocMetaAligned nelem size alignment =>
    simp only [serve, Acdc.callocMetaAligned, Acdc.mallocMetaAligned, Request.size,
      Request.alignment, finish, clears, ofNat_mul, UInt64.sub_eq_add_neg, UInt64.add_assoc]
    cases getChunk (nelem * size + (alignment + -1)) h <;> rfl

theorem toNat_chunk (hr : r.Fits) :
    (UInt64.ofNat r.size + (r.alignment - 1)).toNat = r.chunk := by
  have hpos := toNat_alignment_pos hr
  have hfit := hr.chunk
  have hone : (r.alignment - 1).toNat = r.alignment.toNat - 1 := by
    rw [UInt64.toNat_sub_of_le _ _ (by rw [UInt64.le_iff_toNat_le, UInt64.toNat_one]; omega),
      UInt64.toNat_one]
  rw [UInt64.toNat_add, hone, UInt64.toNat_ofNat_of_lt' (show r.size < 2 ^ 64 by omega), chunk]
  exact Nat.mod_eq_of_lt hfit

/-- A request is served if its chunk ends before the end of the heap, and then its block lies
in the chunk at an aligned address. -/
structure Served (r : Request) (h : MetadataHeap) (ptr : UInt64) (h' : MetadataHeap) : Prop where
  aligned : r.alignment.toNat ∣ ptr.toNat
  ge : h.bumpPointer.toNat ≤ ptr.toNat
  le : ptr.toNat + r.size ≤ h'.bumpPointer.toNat
  bumpPointer : h'.bumpPointer.toNat = h.bumpPointer.toNat + r.chunk
  lt : h'.bumpPointer.toNat < h.stop.toNat
  stop : h'.stop = h.stop

private theorem serve_eq_finish (hr : r.Fits)
    (hroom : h.bumpPointer.toNat + r.chunk < h.stop.toNat) :
    r.serve h = r.finish h.bumpPointer
      { h with bumpPointer := h.bumpPointer + (UInt64.ofNat r.size + (r.alignment - 1)) } := by
  have hstop := h.stop.toNat_lt
  rw [serve_eq, getChunk_eq (toNat_chunk hr), if_neg (by omega), if_neg (by omega)]
  rfl

private theorem served_of_room (hr : r.Fits) (bytes : Memory)
    (hroom : h.bumpPointer.toNat + r.chunk < h.stop.toNat) :
    r.Served h (alignAddress h.bumpPointer r.alignment)
      { h with
        bumpPointer := h.bumpPointer + (UInt64.ofNat r.size + (r.alignment - 1))
        bytes := bytes } := by
  have hstop := h.stop.toNat_lt
  have hbump : (h.bumpPointer + (UInt64.ofNat r.size + (r.alignment - 1))).toNat =
      h.bumpPointer.toNat + r.chunk := by
    rw [UInt64.toNat_add, toNat_chunk hr]
    exact Nat.mod_eq_of_lt (by omega)
  have hpos := toNat_alignment_pos hr
  have hchunk : r.chunk = r.size + (r.alignment.toNat - 1) := rfl
  obtain ⟨k, hk⟩ := hr.power
  have hptr : (alignAddress h.bumpPointer r.alignment).toNat =
      alignUp h.bumpPointer.toNat r.alignment.toNat := toNat_alignAddress hk (by omega)
  have hle := alignUp_le h.bumpPointer.toNat r.alignment.toNat
  constructor
  · rw [hptr]
    exact dvd_alignUp _ _
  · rw [hptr]
    exact le_alignUp hpos
  · rw [hptr, hbump]
    omega
  · exact hbump
  · rw [hbump]
    exact hroom
  · rfl

/-- What a request returns lies in a chunk before the end of the heap. -/
theorem served_of_serve {h' : MetadataHeap} (hr : r.Fits) (hs : r.serve h = .ok (ptr, h')) :
    r.Served h ptr h' := by
  by_cases hroom : h.bumpPointer.toNat + r.chunk < h.stop.toNat
  · rw [serve_eq_finish hr hroom, finish] at hs
    split at hs
    · dsimp only at hs
      cases hc : clear (alignAddress h.bumpPointer r.alignment) (UInt64.ofNat r.size) h.bytes with
      | error e =>
        rw [hc] at hs
        cases hs
      | ok bytes =>
        rw [hc] at hs
        cases hs
        exact served_of_room hr bytes hroom
    · cases hs
      exact served_of_room hr h.bytes hroom
  · rw [serve_eq, getChunk_eq (toNat_chunk hr)] at hs
    split at hs
    · cases hs
    · rw [if_pos (by omega)] at hs
      cases hs

/-- A request is served if there is room, and clears its block only. A block to be cleared may
have `INT_MAX` bytes. -/
theorem serve_of_room (hr : r.Fits) (hsize : r.clears = true → r.size < 2 ^ 31)
    (hroom : h.bumpPointer.toNat + r.chunk < h.stop.toNat) :
    ∃ ptr h', r.serve h = .ok (ptr, h') ∧ r.Served h ptr h' ∧
      ∀ x, h'.bytes x = if r.clears = true ∧ (r.block ptr).Has x then 0 else h.bytes x := by
  rw [serve_eq_finish hr hroom, finish]
  split
  · next hc =>
    have hserved := served_of_room hr h.bytes hroom
    have hlt := h.stop.toNat_lt
    have hle := hserved.le
    have hbump := hserved.lt
    have hn : (UInt64.ofNat r.size).toNat = r.size :=
      UInt64.toNat_ofNat_of_lt' (show r.size < 2 ^ 64 by omega)
    have hclear : clear (alignAddress h.bumpPointer r.alignment) (UInt64.ofNat r.size) h.bytes =
        .ok fun x ↦ if (r.block (alignAddress h.bumpPointer r.alignment)).Has x then 0
          else h.bytes x := by
      rw [clear, hn]
      exact foldlM_clearByte h.bytes (hsize hc) (by omega)
    dsimp only
    rw [hclear]
    refine ⟨_, _, rfl, served_of_room hr _ hroom, fun x ↦ ?_⟩
    rw [if_congr (and_iff_right hc) rfl rfl]
  · next hc =>
    refine ⟨_, _, rfl, served_of_room hr h.bytes hroom, fun x ↦ ?_⟩
    rw [if_neg fun hx ↦ hc hx.1]

end Request

/-! ### All requests -/

/-- Requests that are served one after the other have their blocks between the bump pointer and
the end of the heap. -/
theorem serveAll_packed {rs : List Request} (hrs : ∀ r ∈ rs, r.Fits) :
    (∀ b ∈ (serveAll rs h).1, b.1.alignment.toNat ∣ b.2.toNat) ∧
      Packed h.bumpPointer.toNat h.stop.toNat
        ((serveAll rs h).1.map fun b ↦ b.1.block b.2) := by
  induction rs generalizing h with
  | nil => exact ⟨nofun, packed_nil _ _⟩
  | cons r rs ih =>
    have hr := hrs r List.mem_cons_self
    rw [serveAll]
    cases hs : r.serve h with
    | error e => exact ⟨nofun, packed_nil _ _⟩
    | ok p =>
      obtain ⟨ptr, h'⟩ := p
      have hserved := Request.served_of_serve hr hs
      obtain ⟨haligned, hpacked⟩ := ih (h := h') fun r hr ↦ hrs r (List.mem_cons_of_mem _ hr)
      dsimp only
      constructor
      · intro b hb
        obtain rfl | hb := List.mem_cons.mp hb
        · exact hserved.aligned
        · exact haligned b hb
      · rw [hserved.stop] at hpacked
        rw [List.map_cons]
        exact hpacked.cons hserved.ge hserved.le (Nat.le_of_lt hserved.lt)

/-- What any requests are served with are aligned blocks inside the heap that do not overlap,
and a request clears exactly the block that it asks to be cleared. -/
theorem serveAll_blocks (start stop : UInt64) (bytes : Memory) {rs : List Request}
    (hrs : ∀ r ∈ rs, r.Fits) :
    (∀ b ∈ (serveAll rs ⟨start, stop, start, bytes⟩).1, b.1.alignment.toNat ∣ b.2.toNat) ∧
    (∀ b ∈ (serveAll rs ⟨start, stop, start, bytes⟩).1,
      start.toNat ≤ b.2.toNat ∧ b.2.toNat + b.1.size ≤ stop.toNat) ∧
    (serveAll rs ⟨start, stop, start, bytes⟩).1.Pairwise
      (fun b b' ↦ (b.1.block b.2).Apart (b'.1.block b'.2)) ∧
    ∀ r ∈ rs, (r.clears = true → r.size < 2 ^ 31) → ∀ h : MetadataHeap,
      h.bumpPointer.toNat + r.chunk < h.stop.toNat →
        ∃ ptr h', r.serve h = .ok (ptr, h') ∧
          ∀ x, h'.bytes x = if r.clears = true ∧ (r.block ptr).Has x then 0 else h.bytes x := by
  obtain ⟨haligned, hwithin, hapart⟩ := serveAll_packed (h := ⟨start, stop, start, bytes⟩) hrs
  refine ⟨haligned, fun b hb ↦ ?_, List.pairwise_map.mp hapart, fun r hr hsize h hroom ↦ ?_⟩
  · exact hwithin _ (List.mem_map_of_mem hb)
  · obtain ⟨ptr, h', hs, -, hbytes⟩ := Request.serve_of_room (hrs r hr) hsize hroom
    exact ⟨ptr, h', hs, hbytes⟩

/-- Three blocks from an address that is not aligned. -/
theorem serveAll_blocks_three :
    let rs : List Request := [.mallocMeta 5, .callocMetaAligned 1 112 64, .callocMeta 3 8]
    let h : MetadataHeap := ⟨4097, 8192, 4097, fun _ ↦ 1⟩
    (∀ b ∈ (serveAll rs h).1, b.1.alignment.toNat ∣ b.2.toNat) ∧
      (serveAll rs h).1.Pairwise fun b b' ↦ (b.1.block b.2).Apart (b'.1.block b'.2) := by
  intro rs h
  have hrs : ∀ r ∈ rs, r.Fits := by
    intro r hr
    obtain rfl | rfl | rfl : r = .mallocMeta 5 ∨ r = .callocMetaAligned 1 112 64 ∨
        r = .callocMeta 3 8 := by simpa [rs] using hr
    · exact ⟨⟨4, rfl⟩, by decide⟩
    · exact ⟨⟨6, rfl⟩, by decide⟩
    · exact ⟨⟨4, rfl⟩, by decide⟩
  have hblocks := serveAll_blocks 4097 8192 (fun _ ↦ 1) hrs
  exact ⟨hblocks.1, hblocks.2.2.1⟩

end Acdc
