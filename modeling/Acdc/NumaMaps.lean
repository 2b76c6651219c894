import Acdc.Base.CString
import Mathlib.Algebra.BigOperators.Group.List.Basic
import Mathlib.Data.List.Induction
import Mathlib.Data.Nat.ModEq

/-!
# Dirty huge pages

The scan of `/proc/[pid]/numa_maps` by `get_dirty_hugepages`, `src/proc-status.c:63–101`. The
search for `dirty` is used without a test, and the copy of the number ends at a space only. The
scan stops where it uses a null match, passes the NUL of the line or passes `numbuf`.
-/

namespace Acdc

open CString

/-- What a scan must not do, or what it leaves undefined. -/
inductive ScanStop where
  | nullMatch
  | pastTerminator
  | pastNumbuf
  | undefined
  deriving DecidableEq, Repr

/-- The strings that are searched; `src/proc-status.c:78,83`. -/
def anonHugepage : List UInt8 :=
  ascii ['a', 'n', 'o', 'n', '_', 'h', 'u', 'g', 'e', 'p', 'a', 'g', 'e']

def dirty : List UInt8 := ascii ['d', 'i', 'r', 't', 'y']

/-- The copy to `numbuf`, of `lineMax` bytes, from what is left of the line and its NUL;
`src/proc-status.c:86–90`. -/
def copyNumber (lineMax : Nat) : Nat → List UInt8 → Except ScanStop (List UInt8)
  | _, [] => .error .pastTerminator
  | k, c :: r =>
    if c = 32 then .ok []
    else if lineMax ≤ k then .error .pastNumbuf
    else do
      let numbuf ← copyNumber lineMax (k + 1) r
      return c :: numbuf

/-- One turn of the loop over the lines; `src/proc-status.c:78–94`. -/
def scanLine (lineMax : Nat) (numDirty : UInt64) (buf : List UInt8) : Except ScanStop UInt64 :=
  match strstr anonHugepage (text buf) with
  | none => .ok numDirty
  | some _ =>
    match strstr dirty (text buf) with
    | none => .error .nullMatch
    | some r => do
      let numbuf ← copyNumber lineMax 0 ((r ++ [0]).drop 6)
      match atol (text numbuf) with
      | none => .error .undefined
      | some number => return numDirty + number.toUInt64

/-- The loop over lines that are read one after the other. -/
def scanLines (lineMax : Nat) (bufs : List (List UInt8)) : Except ScanStop UInt64 :=
  bufs.foldlM (scanLine lineMax) 0

/-- `src/proc-status.c:63–101`, for the content of the file. -/
def getDirtyHugepages (lineMax : Nat) (content : List UInt8) : Except ScanStop UInt64 :=
  scanLines lineMax (lines lineMax content)

/-! ### Fields -/

/-- The name of the field. -/
def dirtyField : List UInt8 := ascii ['d', 'i', 'r', 't', 'y', '=']

/-- The line is one of a huge page mapping. -/
def IsHugepage (buf : List UInt8) : Prop := (strstr anonHugepage (text buf)).isSome = true

instance (buf : List UInt8) : Decidable (IsHugepage buf) :=
  inferInstanceAs (Decidable (_ = true))

/-- The text of the field, up to a space, a newline or the end of the line. -/
def dirtyText (buf : List UInt8) : Option (List UInt8) :=
  (strstr dirtyField (text buf)).map fun r ↦ (r.drop 6).takeWhile fun c ↦ c ≠ 32 ∧ c ≠ 10

/-- The number of dirty pages of a line, none without the field. -/
def dirtyPages (buf : List UInt8) : Nat :=
  if IsHugepage buf then ((dirtyText buf).map decimal).getD 0 else 0

/-- The number of dirty pages of the lines. -/
def sumDirtyPages (bufs : List (List UInt8)) : Nat := (bufs.map dirtyPages).sum

/-- The function returns the number of dirty pages of all lines, and nothing goes wrong. -/
def SumsDirtyPages (lineMax : Nat) (content : List UInt8) : Prop :=
  ∃ v, getDirtyHugepages lineMax content = .ok v ∧
    v.toNat = sumDirtyPages (lines lineMax content)

/-- After each line `num_dirty` is the number for the lines so far, and nothing has gone wrong. -/
def SumsEachLine (lineMax : Nat) (bufs : List (List UInt8)) : Prop :=
  ∀ k, ∃ v, scanLines lineMax (bufs.take k) = .ok v ∧ v.toNat = sumDirtyPages (bufs.take k)

/-- The number up to a space that stands behind the first `dirty` and one more byte, where all of
these are there and the number is one of type `long`. -/
def scanned (buf : List UInt8) : Option Int64 :=
  match strstr dirty (text buf) with
  | none => none
  | some r => if 32 ∈ r.drop 6 then atol ((r.drop 6).takeWhile (· ≠ 32)) else none

/-- The line has that number. -/
def Scannable (buf : List UInt8) : Prop := (scanned buf).isSome = true

/-- That number as a `size_t`. -/
def scannedPages (buf : List UInt8) : Nat :=
  if IsHugepage buf then ((scanned buf).map fun number ↦ number.toUInt64.toNat).getD 0 else 0

/-- The line has that number, and it is that of the field. -/
def Readable (buf : List UInt8) : Prop := Scannable buf ∧ scannedPages buf = dirtyPages buf

variable {lineMax k : Nat} {buf r : List UInt8} {bufs : List (List UInt8)} {numDirty v : UInt64}

/-! ### One line -/

/-- The copy ends at a space. -/
theorem copyNumber_eq (hs : 32 ∈ r) (hk : k + r.length ≤ lineMax) (t : List UInt8) :
    copyNumber lineMax k (r ++ t) = .ok (r.takeWhile (· ≠ 32)) := by
  induction r generalizing k with
  | nil => cases hs
  | cons c r ih =>
    rw [List.length_cons] at hk
    rw [List.cons_append, copyNumber]
    by_cases hc : c = 32
    · rw [if_pos hc, List.takeWhile_cons_of_neg (by simpa using hc)]
    · have hr : 32 ∈ r := (List.mem_cons.mp hs).resolve_left fun h ↦ hc h.symm
      rw [if_neg hc, if_neg (by omega), ih hr (by omega),
        List.takeWhile_cons_of_pos (by simpa using hc)]
      rfl

/-- Without a space the copy does not end before the NUL has been passed. -/
theorem copyNumber_ne_ok (hs : 32 ∉ r) (numbuf : List UInt8) :
    copyNumber lineMax k r ≠ .ok numbuf := by
  induction r generalizing k numbuf with
  | nil => exact nofun
  | cons c r ih =>
    rw [List.mem_cons, not_or] at hs
    rw [copyNumber, if_neg fun h ↦ hs.1 h.symm]
    split
    · exact nofun
    · cases h : copyNumber lineMax (k + 1) r with
      | error e => exact nofun
      | ok t => exact absurd h (ih hs.2 t)

theorem scanLine_of_not (h : ¬ IsHugepage buf) : scanLine lineMax numDirty buf = .ok numDirty := by
  rw [IsHugepage, Bool.not_eq_true, Option.isSome_eq_false_iff, Option.isNone_iff_eq_none] at h
  rw [scanLine, h]

/-- A number that ends at a space is copied and read. -/
theorem scanLine_eq (h : IsHugepage buf) (hlen : buf.length < lineMax)
    (hd : strstr dirty (text buf) = some r) (hspace : 32 ∈ r.drop 6) :
    scanLine lineMax numDirty buf =
      match atol ((r.drop 6).takeWhile (· ≠ 32)) with
      | none => .error .undefined
      | some number => .ok (numDirty + number.toUInt64) := by
  obtain ⟨a, ha⟩ := Option.isSome_iff_exists.mp h
  have hsuffix := (List.drop_suffix 6 r).trans (strstr_suffix hd)
  have hbound : (r.drop 6).length ≤ buf.length := hsuffix.length_le.trans (length_text_le buf)
  -- the copy is of bytes of the line, so it has no NUL
  have htext : text ((r.drop 6).takeWhile (· ≠ 32)) = (r.drop 6).takeWhile (· ≠ 32) := by
    apply text_eq_self
    intro hz
    exact notMem_text buf (hsuffix.subset ((List.takeWhile_prefix _).subset hz))
  rw [scanLine, ha, hd]
  dsimp only
  rw [List.drop_append, copyNumber_eq hspace (by omega)]
  change (match atol (text ((r.drop 6).takeWhile (· ≠ 32))) with
    | none => Except.error ScanStop.undefined
    | some number => pure (numDirty + number.toUInt64)) = _
  rw [htext]
  rfl

theorem scanLine_of_scanned (h : IsHugepage buf) (hlen : buf.length < lineMax) {number : Int64}
    (hs : scanned buf = some number) :
    scanLine lineMax numDirty buf = .ok (numDirty + number.toUInt64) := by
  rw [scanned] at hs
  cases hd : strstr dirty (text buf) with
  | none =>
    rw [hd] at hs
    cases hs
  | some r =>
    rw [hd] at hs
    dsimp only at hs
    split at hs
    · next hspace => rw [scanLine_eq h hlen hd hspace, hs]
    · cases hs

/-- Without a number of its own a line stops the scan. -/
theorem scannable_of_scanLine (h : IsHugepage buf) (hlen : buf.length < lineMax)
    (hok : scanLine lineMax numDirty buf = .ok v) : Scannable buf := by
  obtain ⟨a, ha⟩ := Option.isSome_iff_exists.mp h
  rw [Scannable, scanned]
  cases hd : strstr dirty (text buf) with
  | none =>
    rw [scanLine, ha, hd] at hok
    cases hok
  | some r =>
    dsimp only
    by_cases hspace : 32 ∈ r.drop 6
    · rw [scanLine_eq h hlen hd hspace] at hok
      rw [if_pos hspace]
      cases hn : atol ((r.drop 6).takeWhile (· ≠ 32)) with
      | none =>
        rw [hn] at hok
        cases hok
      | some number => rfl
    · have hnul : 32 ∉ (r ++ [0]).drop 6 := by
        rw [List.drop_append, List.mem_append, not_or]
        apply And.intro hspace
        intro hmem
        exact absurd (List.mem_of_mem_drop hmem) (by decide)
      rw [scanLine, ha, hd] at hok
      dsimp only at hok
      cases hc : copyNumber lineMax 0 ((r ++ [0]).drop 6) with
      | error e =>
        rw [hc] at hok
        cases hok
      | ok numbuf => exact absurd hc (copyNumber_ne_ok hnul numbuf)

/-- A line is scanned where it has a number of its own, which is added. -/
theorem scanLine_eq_ok_iff (hlen : buf.length < lineMax) :
    scanLine lineMax numDirty buf = .ok v ↔
      (IsHugepage buf → Scannable buf) ∧ v = numDirty + UInt64.ofNat (scannedPages buf) := by
  by_cases h : IsHugepage buf
  · constructor
    · intro hok
      have hs := scannable_of_scanLine h hlen hok
      obtain ⟨number, hn⟩ := Option.isSome_iff_exists.mp hs
      rw [scanLine_of_scanned h hlen hn] at hok
      rw [scannedPages, if_pos h, hn]
      cases hok
      exact ⟨fun _ ↦ hs, by simp⟩
    · intro ⟨hs, hv⟩
      obtain ⟨number, hn⟩ := Option.isSome_iff_exists.mp (hs h)
      rw [scannedPages, if_pos h, hn] at hv
      rw [scanLine_of_scanned h hlen hn, hv]
      simp
  · rw [scanLine_of_not h, scannedPages, if_neg h]
    constructor
    · intro hok
      cases hok
      exact ⟨fun h' ↦ absurd h' h, by simp⟩
    · intro ⟨_, hv⟩
      rw [hv]
      simp

theorem scannedPages_lt (buf : List UInt8) : scannedPages buf < 2 ^ 64 := by
  rw [scannedPages]
  split
  · cases scanned buf with
    | none => exact Nat.two_pow_pos 64
    | some number => exact number.toUInt64.toNat_lt
  · exact Nat.two_pow_pos 64

/-- A line whose first `dirty` is that of the field, with a number and a space behind it. -/
theorem readable_of_field {digits t : List UInt8} (h : IsHugepage buf)
    (hd : strstr dirty (text buf) = some (dirtyField ++ (digits ++ 32 :: t)))
    (hne : digits ≠ []) (hdigits : ∀ c ∈ digits, isdigit c = true)
    (hlt : decimal digits < 2 ^ 63) : Readable buf := by
  have hstop (p : UInt8 → Bool) (hp : ∀ c, isdigit c = true → p c = true)
      (hspace : p 32 = false) : (digits ++ 32 :: t).takeWhile p = digits := by
    rw [List.takeWhile_append_of_pos fun c hc ↦ hp c (hdigits c hc),
      List.takeWhile_cons_of_neg (by rw [hspace]; decide), List.append_nil]
  have hne32 (c : UInt8) (hc : isdigit c = true) : c ≠ 32 := by
    intro h32
    rw [h32] at hc
    cases hc
  have hne10 (c : UInt8) (hc : isdigit c = true) : c ≠ 10 := by
    intro h10
    rw [h10] at hc
    cases hc
  have hfield : dirtyText buf = some digits := by
    have hs : strstr dirtyField (text buf) = _ :=
      strstr_of_prefix hd (by decide) (List.prefix_append ..) (by decide)
    rw [dirtyText, hs]
    apply congrArg some
    apply hstop
    · intro c hc
      exact decide_eq_true ⟨hne32 c hc, hne10 c hc⟩
    · decide
  have hscanned : scanned buf = some (Int64.ofInt (decimal digits)) := by
    rw [scanned, hd]
    dsimp only
    change (if 32 ∈ digits ++ 32 :: t then
      atol ((digits ++ 32 :: t).takeWhile (· ≠ 32)) else none) = _
    rw [if_pos (List.mem_append_right digits List.mem_cons_self),
      hstop _ (fun c hc ↦ decide_eq_true (hne32 c hc)) (by decide)]
    cases digits with
    | nil => exact absurd rfl hne
    | cons c s => exact atol_of_isdigit (hdigits c List.mem_cons_self) hlt
  constructor
  · rw [Scannable, hscanned]
    rfl
  · rw [scannedPages, dirtyPages, if_pos h, if_pos h, hscanned, hfield]
    change (BitVec.ofInt 64 (decimal digits)).toNat = decimal digits
    rw [BitVec.ofInt_natCast, BitVec.toNat_ofNat, Nat.mod_eq_of_lt (by omega)]

/-! ### All lines -/

/-- The numbers that the scan adds. -/
def sumScannedPages (bufs : List (List UInt8)) : Nat := (bufs.map scannedPages).sum

theorem scanLines_eq_ok_iff (hlen : ∀ buf ∈ bufs, buf.length < lineMax) :
    scanLines lineMax bufs = .ok v ↔
      (∀ buf ∈ bufs, IsHugepage buf → Scannable buf) ∧
        v = UInt64.ofNat (sumScannedPages bufs) := by
  rw [scanLines, sumScannedPages]
  induction bufs using List.reverseRecOn generalizing v with
  | nil =>
    constructor
    · intro hok
      cases hok
      exact ⟨nofun, rfl⟩
    · intro ⟨_, hv⟩
      rw [hv]
      rfl
  | append_singleton bufs buf ih =>
    rw [List.forall_mem_append, List.forall_mem_singleton] at hlen
    rw [List.foldlM_append, List.forall_mem_append, List.forall_mem_singleton, List.map_append,
      List.sum_append, List.map_singleton, List.sum_singleton, UInt64.ofNat_add]
    cases hfold : bufs.foldlM (scanLine lineMax) 0 with
    | error e =>
      rw [hfold] at ih
      constructor
      · exact nofun
      · intro ⟨hs, _⟩
        exact absurd ((ih hlen.1).mpr ⟨hs.1, rfl⟩) nofun
    | ok numDirty =>
      obtain ⟨hs, hn⟩ := (ih hlen.1).mp hfold
      change scanLine lineMax numDirty buf >>= pure = _ ↔ _
      rw [bind_pure, scanLine_eq_ok_iff hlen.2, hn]
      exact ⟨fun h ↦ ⟨⟨hs, h.1⟩, h.2⟩, fun h ↦ ⟨h.1.2, h.2⟩⟩

private theorem sums_mod_eq_iff {α : Type*} {m : Nat} {f g : α → Nat} (hm : 0 < m)
    (hf : ∀ a, f a < m) (l : List α) :
    (∀ k, ((l.take k).map f).sum % m = ((l.take k).map g).sum) ↔
      (∀ a ∈ l, f a = g a) ∧ (l.map g).sum < m := by
  constructor
  · intro h
    induction l using List.reverseRecOn with
    | nil => exact ⟨nofun, hm⟩
    | append_singleton l a ih =>
      have hinit (k : Nat) : ((l.take k).map f).sum % m = ((l.take k).map g).sum := by
        have hk := h (min k l.length)
        rwa [List.take_append_of_le_length (min_le_right _ _), ← List.take_take,
          List.take_length] at hk
      obtain ⟨heq, hlt⟩ := ih hinit
      have hall := hinit l.length
      have hlast := h (l ++ [a]).length
      rw [List.take_length] at hall hlast
      rw [List.map_append, List.sum_append, List.map_append, List.sum_append, List.map_singleton,
        List.map_singleton, List.sum_singleton, List.sum_singleton, Nat.add_mod, hall,
        Nat.mod_eq_of_lt (hf a)] at hlast
      have hlt' := Nat.mod_lt ((l.map g).sum + f a) hm
      have hfa := hf a
      have ha : f a = g a := by
        rcases Nat.lt_or_ge ((l.map g).sum + f a) m with hsum | hsum
        · rw [Nat.mod_eq_of_lt hsum] at hlast
          omega
        · rw [Nat.mod_eq_sub_mod hsum, Nat.mod_eq_of_lt (by omega)] at hlast
          omega
      rw [List.forall_mem_append, List.forall_mem_singleton, List.map_append, List.sum_append,
        List.map_singleton, List.sum_singleton]
      exact ⟨⟨heq, ha⟩, by omega⟩
  · intro ⟨heq, hlt⟩ k
    have hmap : (l.take k).map f = (l.take k).map g :=
      List.map_congr_left fun a ha ↦ heq a (List.mem_of_mem_take ha)
    have hsplit := List.sum_take_add_sum_drop (l.map g) k
    rw [hmap]
    apply Nat.mod_eq_of_lt
    rw [List.map_take]
    omega

/-- The result of a scan of lines. -/
theorem exists_scanLines_eq_iff (hlen : ∀ buf ∈ bufs, buf.length < lineMax) (d : Nat) :
    (∃ v, scanLines lineMax bufs = .ok v ∧ v.toNat = d) ↔
      (∀ buf ∈ bufs, IsHugepage buf → Scannable buf) ∧ sumScannedPages bufs % 2 ^ 64 = d := by
  constructor
  · intro ⟨v, hok, hv⟩
    obtain ⟨hs, rfl⟩ := (scanLines_eq_ok_iff hlen).mp hok
    exact ⟨hs, by rwa [UInt64.toNat_ofNat'] at hv⟩
  · intro ⟨hs, hd⟩
    exact ⟨_, (scanLines_eq_ok_iff hlen).mpr ⟨hs, rfl⟩, by rwa [UInt64.toNat_ofNat']⟩

/-- A scan whose sum is right after every line. -/
theorem sumsEachLine_iff (hlen : ∀ buf ∈ bufs, buf.length < lineMax) :
    SumsEachLine lineMax bufs ↔
      (∀ buf ∈ bufs, IsHugepage buf → Readable buf) ∧ sumDirtyPages bufs < 2 ^ 64 := by
  have htake (k : Nat) (buf : List UInt8) (hmem : buf ∈ bufs.take k) : buf.length < lineMax :=
    hlen buf (List.mem_of_mem_take hmem)
  have hk (k : Nat) := exists_scanLines_eq_iff (htake k) (sumDirtyPages (bufs.take k))
  have hscannable : (∀ k, ∀ buf ∈ bufs.take k, IsHugepage buf → Scannable buf) ↔
      ∀ buf ∈ bufs, IsHugepage buf → Scannable buf := by
    constructor
    · intro h
      have hall := h bufs.length
      rwa [List.take_length] at hall
    · intro h k buf hmem
      exact h buf (List.mem_of_mem_take hmem)
  have hsums : (∀ k, sumScannedPages (bufs.take k) % 2 ^ 64 = sumDirtyPages (bufs.take k)) ↔ _ :=
    sums_mod_eq_iff (Nat.two_pow_pos 64) scannedPages_lt bufs
  rw [SumsEachLine, forall_congr' hk, forall_and, hscannable, hsums, ← and_assoc]
  apply and_congr_left'
  constructor
  · intro ⟨hs, heq⟩ buf hmem h
    exact ⟨hs buf hmem h, heq buf hmem⟩
  · intro h
    apply And.intro fun buf hmem hh ↦ (h buf hmem hh).1
    intro buf hmem
    by_cases hh : IsHugepage buf
    · exact (h buf hmem hh).2
    · rw [scannedPages, dirtyPages, if_neg hh, if_neg hh]

/-- A file whose lines of huge page mappings are all readable is summed. -/
theorem sumsDirtyPages_of_readable (hmax : 2 ≤ lineMax) {content : List UInt8}
    (h : ∀ buf ∈ lines lineMax content, IsHugepage buf → Readable buf)
    (hlt : sumDirtyPages (lines lineMax content) < 2 ^ 64) : SumsDirtyPages lineMax content := by
  have hlen (buf : List UInt8) (hmem : buf ∈ lines lineMax content) : buf.length < lineMax :=
    length_lt_of_mem_lines (by omega) hmem
  have hall := (sumsEachLine_iff hlen).mpr ⟨h, hlt⟩ (lines lineMax content).length
  rwa [List.take_length] at hall

/-- The whole file is read. Its dirty pages are summed where every line of a huge page mapping has
a number to scan and these numbers add up to those of the fields, as they do where each is that of
its field. That each is, and that the fields fit a `size_t`, is what it takes for the sum to be
right after every line. -/
theorem getDirtyHugepages_iff (hmax : 2 ≤ lineMax) (content : List UInt8) :
    (lines lineMax content).flatten = content ∧
    (SumsDirtyPages lineMax content ↔
      (∀ buf ∈ lines lineMax content, IsHugepage buf → Scannable buf) ∧
      sumDirtyPages (lines lineMax content) < 2 ^ 64 ∧
      sumScannedPages (lines lineMax content) ≡ sumDirtyPages (lines lineMax content)
        [MOD 2 ^ 64]) ∧
    (SumsEachLine lineMax (lines lineMax content) ↔
      (∀ buf ∈ lines lineMax content, IsHugepage buf → Readable buf) ∧
      sumDirtyPages (lines lineMax content) < 2 ^ 64) := by
  have hlen (buf : List UInt8) (hmem : buf ∈ lines lineMax content) : buf.length < lineMax :=
    length_lt_of_mem_lines (by omega) hmem
  apply And.intro (flatten_lines hmax content)
  apply And.intro _ (sumsEachLine_iff hlen)
  rw [SumsDirtyPages, getDirtyHugepages, exists_scanLines_eq_iff hlen]
  apply and_congr_right'
  constructor
  · intro hd
    have hlt := Nat.mod_lt (sumScannedPages (lines lineMax content)) (Nat.two_pow_pos 64)
    rw [hd] at hlt
    exact ⟨hlt, hd.trans (Nat.mod_eq_of_lt hlt).symm⟩
  · intro ⟨hlt, hmod⟩
    rwa [Nat.ModEq, Nat.mod_eq_of_lt hlt] at hmod

/-- The line of a huge page mapping of which seven pages are dirty. -/
def sevenDirty : List UInt8 :=
  ascii ['7', 'f', '0', '0', ' ', 'f', 'i', 'l', 'e', '=', '/', 'a', 'n', 'o', 'n', '_', 'h', 'u',
    'g', 'e', 'p', 'a', 'g', 'e', ' ', 'd', 'i', 'r', 't', 'y', '=', '7', ' ', 'N', '0', '=', '7',
    '\n']

theorem getDirtyHugepages_iff_sevenDirty :
    2 ≤ 2048 ∧ sumDirtyPages (lines 2048 sevenDirty) = 7 ∧ SumsDirtyPages 2048 sevenDirty := by
  have hiff := getDirtyHugepages_iff (show 2 ≤ 2048 by omega) sevenDirty
  have hlines : lines 2048 sevenDirty = [sevenDirty] := by decide
  rw [hlines] at hiff ⊢
  have hsum : sumDirtyPages [sevenDirty] = 7 := by decide
  have hscanned : sumScannedPages [sevenDirty] = 7 := by decide
  have hscan : scanned sevenDirty = some 7 := by decide
  rw [hsum, hscanned, List.forall_mem_singleton, Scannable, hscan] at hiff
  exact ⟨by omega, hsum, hiff.2.1.mpr ⟨fun _ ↦ rfl, by omega, rfl⟩⟩

/-- The line of a huge page mapping of which no page has been touched. -/
def untouched : List UInt8 :=
  ascii ['7', 'f', '0', '0', ' ', 'f', 'i', 'l', 'e', '=', '/', 'a', 'n', 'o', 'n', '_', 'h', 'u',
    'g', 'e', 'p', 'a', 'g', 'e', ' ', 'h', 'u', 'g', 'e', '\n']

/-- The search for `dirty` in it finds nothing. -/
theorem not_forall_sumsDirtyPages : ¬ ∀ content, SumsDirtyPages 2048 content := by
  intro h
  obtain ⟨v, hv, _⟩ := h untouched
  have hstop : getDirtyHugepages 2048 untouched = .error .nullMatch := by decide
  rw [hstop] at hv
  cases hv

end Acdc
