import Acdc.Base.LastValue
import Acdc.NumaMaps

/-!
# Memory of the process

The reader of `/proc/[pid]/status`, `src/proc-status.c:43–60,103–154`, which takes three fields and
adds the huge pages that `/proc/[pid]/numa_maps` counts as dirty. A field that occurs more than
once has its last value, and a field that does not occur is 0.
-/

namespace Acdc

open CString LastValue

/-- `src/proc-status.c:25–29`. -/
structure ProcStatus where
  vmSize : Int64
  vmRss : Int64
  vmData : Int64
  deriving DecidableEq, Repr

/-- The names of the fields. -/
def vmSizeName : List UInt8 := ascii ['V', 'm', 'S', 'i', 'z', 'e']

def vmRssName : List UInt8 := ascii ['V', 'm', 'R', 'S', 'S']

def vmDataName : List UInt8 := ascii ['V', 'm', 'D', 'a', 't', 'a']

/-- `src/proc-status.c:43–60`. Only the first `lineMax` bytes have their tabs replaced. -/
def getLongFromLine (lineMax : Nat) (str : List UInt8) (index : Nat) : Except ScanStop Int64 :=
  let str := (str.take lineMax).map (fun c ↦ if c = 9 then 32 else c) ++ str.drop lineMax
  match (strtok 32 str)[index]? with
  | none => .ok 0
  | some token =>
    match atol token with
    | none => .error .undefined
    | some number => .ok number

/-- One of the tests of `src/proc-status.c:124–132`. -/
def scanField (lineMax : Nat) (name : List UInt8) (set : ProcStatus → Int64 → ProcStatus)
    (buf : List UInt8) (stat : ProcStatus) : Except ScanStop ProcStatus :=
  if name.isPrefixOf (text buf) then do
    let value ← getLongFromLine lineMax (text buf) 1
    return set stat value
  else .ok stat

/-- One turn of the loop over the lines. -/
def scanStatusLine (lineMax : Nat) (stat : ProcStatus) (buf : List UInt8) :
    Except ScanStop ProcStatus := do
  let stat ← scanField lineMax vmSizeName (fun stat x ↦ { stat with vmSize := x }) buf stat
  let stat ← scanField lineMax vmRssName (fun stat x ↦ { stat with vmRss := x }) buf stat
  scanField lineMax vmDataName (fun stat x ↦ { stat with vmData := x }) buf stat

/-- `src/proc-status.c:103–143`, for the contents of the two files. -/
def updateProcStatus (lineMax : Nat) (status numaMaps : List UInt8) :
    Except ScanStop ProcStatus := do
  let stat ← (lines lineMax status).foldlM (scanStatusLine lineMax) ⟨0, 0, 0⟩
  let dirtyHugepages ← getDirtyHugepages lineMax numaMaps
  return { stat with vmRss := (stat.vmRss.toUInt64 + dirtyHugepages * 2048).toInt64 }

/-- `src/proc-status.c:146–154`. -/
def getVmSize (stat : ProcStatus) : Int64 := stat.vmSize

def getResidentSetSize (stat : ProcStatus) : Int64 := stat.vmRss

def getDataSegmentSize (stat : ProcStatus) : Int64 := stat.vmData

/-! ### Lines of the file -/

/-- A field with its value in kB, behind tabs and spaces. -/
structure StatusField where
  name : List UInt8
  pad : List UInt8
  value : Int64

/-- The text of the line. -/
def StatusField.line (f : StatusField) : List UInt8 :=
  f.name ++ 58 :: (f.pad ++ (format f.value.toInt ++ ascii [' ', 'k', 'B']))

/-- A line of the file: a field or another text. -/
inductive StatusLine where
  | field (f : StatusField)
  | other (line : List UInt8)

namespace StatusLine

/-- The text of the line. -/
def line : StatusLine → List UInt8
  | field f => f.line
  | other line => line

/-- The value of a field. -/
def value (name : List UInt8) : StatusLine → Option Int64
  | field f => if f.name = name then some f.value else none
  | other _ => none

/-- The line has room in the buffer. Its name is that of a field or does not start with one, its
value is apart from the name. -/
structure Valid (lineMax : Nat) (l : StatusLine) : Prop where
  room : l.line.length + 1 < lineMax
  ends : 10 ∉ l.line ∧ 0 ∉ l.line
  parts : match l with
    | field f => f.pad ≠ [] ∧ (∀ c ∈ f.pad, c = 9 ∨ c = 32) ∧ 9 ∉ f.name ∧ 32 ∉ f.name
    | other _ => True
  names : ∀ name ∈ [vmSizeName, vmRssName, vmDataName], name <+: l.line → (value name l).isSome

end StatusLine

variable {lineMax : Nat} {f : StatusField} {l : StatusLine} {ls : List StatusLine}
  {name buf : List UInt8} {stat : ProcStatus}

private theorem map_tab {s : List UInt8} (h : 9 ∉ s) :
    s.map (fun c ↦ if c = 9 then 32 else c) = s := by
  have hc : ∀ c ∈ s, (if c = 9 then 32 else c) = id c := by
    intro c hc
    exact if_neg fun h9 : c = 9 ↦ h (h9 ▸ hc)
  rw [List.map_congr_left hc, List.map_id]

private theorem map_pad {s : List UInt8} (h : ∀ c ∈ s, c = 9 ∨ c = 32) :
    s.map (fun c ↦ if c = 9 then 32 else c) = List.replicate s.length 32 := by
  apply List.eq_replicate_iff.mpr
  constructor
  · exact List.length_map _
  · intro c hc
    obtain ⟨d, hd, rfl⟩ := List.mem_map.mp hc
    obtain rfl | rfl := h d hd <;> rfl

/-- The value of a field is read from its line. -/
theorem getLongFromLine_line (h : (StatusLine.field f).Valid lineMax) :
    getLongFromLine lineMax (f.line ++ [10]) 1 = .ok f.value := by
  obtain ⟨hpad, hblank, htab, hspace⟩ := h.parts
  obtain ⟨k, hk⟩ : ∃ k, f.pad.length = k + 1 := by
    have hpos := List.length_pos_of_ne_nil hpad
    exact ⟨f.pad.length - 1, by omega⟩
  have hroom : (f.line ++ [10]).length ≤ lineMax := by
    have hroom := h.room
    rw [StatusLine.line] at hroom
    rw [List.length_append, List.length_singleton]
    omega
  -- the line with spaces for its tabs
  have hline : (f.line ++ [10]).map (fun c ↦ if c = 9 then 32 else c) =
      (f.name ++ [58]) ++ 32 :: (List.replicate k 32 ++
        (format f.value.toInt ++ 32 :: [107, 66, 10])) := by
    have hnumber : 9 ∉ format f.value.toInt := notMem_format (by decide) (by decide) _
    have hend : (ascii [' ', 'k', 'B']).map (fun c ↦ if c = 9 then 32 else c) = [32, 107, 66] := rfl
    rw [StatusField.line, List.map_append, List.map_append, map_tab htab, List.map_cons,
      List.map_append, map_pad hblank, List.map_append, map_tab hnumber, hend, hk,
      List.replicate_succ]
    simp only [List.append_assoc, List.cons_append, List.nil_append]
    rfl
  have hnumber : 32 ∉ format f.value.toInt := notMem_format (by decide) (by decide) _
  have hname : 32 ∉ f.name ++ [58] := by simpa using hspace
  have hne : format f.value.toInt ≠ [] := format_ne_nil _
  rw [getLongFromLine, List.take_of_length_le hroom, List.drop_of_length_le hroom, List.append_nil,
    hline, strtok_append (by simp) hname, strtok_skip, strtok_append hne hnumber]
  simp only [List.getElem?_cons_succ, List.getElem?_cons_zero, atol_format]

private theorem text_line (h : l.Valid lineMax) : text (l.line ++ [10]) = l.line ++ [10] := by
  apply text_eq_self
  simpa using h.ends.2

/-- A test finds the field that it looks for, and its value. -/
theorem scanField_eq (h : l.Valid lineMax) (hname : name ∈ [vmSizeName, vmRssName, vmDataName])
    (set : ProcStatus → Int64 → ProcStatus) (stat : ProcStatus) :
    scanField lineMax name set (l.line ++ [10]) stat =
      .ok ((l.value name).elim stat (set stat)) := by
  have h10 : 10 ∉ name := by
    revert name
    decide
  rw [scanField, text_line h]
  by_cases hp : name <+: l.line
  · have hv := h.names name hname hp
    cases l with
    | other line => cases hv
    | field f =>
      rw [if_pos (List.isPrefixOf_iff_prefix.mpr (hp.trans (List.prefix_append _ _)))]
      rw [StatusLine.value] at hv ⊢
      split at hv
      · next hf =>
        rw [if_pos hf, StatusLine.line, getLongFromLine_line h]
        rfl
      · cases hv
  · have hp' : name.isPrefixOf (l.line ++ [10]) = false := by
      apply Bool.eq_false_iff.mpr
      intro h
      obtain rfl | h := List.prefix_concat_iff.mp (List.isPrefixOf_iff_prefix.mp h)
      · exact h10 (List.mem_append_right _ (List.mem_singleton_self _))
      · exact hp h
    have hv : l.value name = none := by
      cases l with
      | other line => rfl
      | field f => exact if_neg fun hf : f.name = name ↦ hp (hf ▸ List.prefix_append _ _)
    rw [hp', hv]
    rfl

/-- A line sets the field that it is about. -/
theorem scanStatusLine_eq (h : l.Valid lineMax) (stat : ProcStatus) :
    scanStatusLine lineMax stat (l.line ++ [10]) = .ok
      { vmSize := (l.value vmSizeName).getD stat.vmSize
        vmRss := (l.value vmRssName).getD stat.vmRss
        vmData := (l.value vmDataName).getD stat.vmData } := by
  have hfield (name : List UInt8) (hname : name ∈ [vmSizeName, vmRssName, vmDataName]) :=
    scanField_eq h hname
  simp only [scanStatusLine, hfield vmSizeName (by simp), hfield vmRssName (by simp),
    hfield vmDataName (by simp)]
  cases l.value vmSizeName <;> cases l.value vmRssName <;> cases l.value vmDataName <;> rfl

/-- After the lines each field has its last value. -/
theorem foldlM_scanStatusLine (h : ∀ l ∈ ls, l.Valid lineMax) (stat : ProcStatus) :
    (ls.map (·.line ++ [10])).foldlM (scanStatusLine lineMax) stat = .ok
      { vmSize := last (StatusLine.value vmSizeName) stat.vmSize ls
        vmRss := last (StatusLine.value vmRssName) stat.vmRss ls
        vmData := last (StatusLine.value vmDataName) stat.vmData ls } := by
  induction ls generalizing stat with
  | nil => rfl
  | cons l ls ih =>
    obtain ⟨hl, hls⟩ := List.forall_mem_cons.mp h
    rw [List.map_cons, List.foldlM_cons, scanStatusLine_eq hl, last_cons, last_cons, last_cons]
    exact ih hls _

/-- The values that the kernel writes are read, and the dirty huge pages of 2048 kB are added to
the resident set, where every line of a huge page mapping is readable. -/
theorem updateProcStatus_lines (hmax : 2 ≤ lineMax) (h : ∀ l ∈ ls, l.Valid lineMax)
    {numaMaps : List UInt8}
    (hn : ∀ buf ∈ lines lineMax numaMaps, IsHugepage buf → Readable buf)
    (hlt : sumDirtyPages (lines lineMax numaMaps) < 2 ^ 64) :
    ∃ stat, updateProcStatus lineMax (ls.flatMap (·.line ++ [10])) numaMaps = .ok stat ∧
      getVmSize stat = last (StatusLine.value vmSizeName) 0 ls ∧
      getDataSegmentSize stat = last (StatusLine.value vmDataName) 0 ls ∧
      (getResidentSetSize stat).toInt = ((last (StatusLine.value vmRssName) 0 ls).toInt +
        2048 * sumDirtyPages (lines lineMax numaMaps)).bmod (2 ^ 64) := by
  obtain ⟨v, hv, hsum⟩ := sumsDirtyPages_of_readable hmax hn hlt
  have hlines : lines lineMax (ls.flatMap (·.line ++ [10])) = ls.map (·.line ++ [10]) := by
    have hroom : ∀ s ∈ ls.map StatusLine.line, 10 ∉ s ∧ s.length + 1 < lineMax := by
      intro s hs
      obtain ⟨l, hl, rfl⟩ := List.mem_map.mp hs
      exact ⟨(h l hl).ends.1, (h l hl).room⟩
    have hlines := lines_flatMap hroom
    rw [List.flatMap_map, List.map_map] at hlines
    exact hlines
  refine ⟨{ vmSize := last (StatusLine.value vmSizeName) 0 ls
            vmRss := ((last (StatusLine.value vmRssName) 0 ls).toUInt64 + v * 2048).toInt64
            vmData := last (StatusLine.value vmDataName) 0 ls }, ?_, rfl, rfl, ?_⟩
  · rw [updateProcStatus, hlines, foldlM_scanStatusLine h, hv]
    rfl
  · have hpages : v * 2048 = UInt64.ofNat (2048 * sumDirtyPages (lines lineMax numaMaps)) := by
      rw [← hsum, Nat.mul_comm, UInt64.ofNat_mul, UInt64.ofNat_toNat]
      rfl
    rw [getResidentSetSize, UInt64.toInt64_add, Int64.toInt64_toUInt64, hpages,
      UInt64.toInt64_ofNat', Int64.toInt_add, Int64.toInt_ofNat']
    exact Int.add_bmod_bmod

/-- A process of 4096 kB with 1234 kB in memory and seven dirty huge pages. -/
theorem updateProcStatus_lines_two :
    let ls : List StatusLine := [.other (ascii ['N', 'a', 'm', 'e', ':', 'a', 'c', 'd', 'c']),
      .field ⟨vmSizeName, [9, 32], 4096⟩, .field ⟨vmRssName, [9, 32, 32], 1234⟩]
    ∃ stat, updateProcStatus 200 (ls.flatMap (·.line ++ [10])) sevenDirty = .ok stat ∧
      getVmSize stat = 4096 ∧ (getResidentSetSize stat).toInt = 1234 + 2048 * 7 := by
  intro ls
  have h : ∀ l ∈ ls, l.Valid 200 := by
    intro l hl
    simp only [ls, List.mem_cons, List.not_mem_nil, or_false] at hl
    obtain rfl | rfl | rfl := hl
    · exact ⟨by decide, by decide, trivial, by decide⟩
    · exact ⟨by decide, by decide, by decide +kernel, by decide +kernel⟩
    · exact ⟨by decide, by decide, by decide +kernel, by decide +kernel⟩
  have hlines : lines 200 sevenDirty = [sevenDirty] := by decide
  have hsum : sumDirtyPages (lines 200 sevenDirty) = 7 := by
    rw [hlines]
    decide
  have hscan : scanned sevenDirty = some 7 := by decide
  have hn : ∀ buf ∈ lines 200 sevenDirty, IsHugepage buf → Readable buf := by
    rw [hlines, List.forall_mem_singleton, Readable, Scannable, hscan]
    exact fun _ ↦ ⟨rfl, by decide⟩
  obtain ⟨stat, hok, hsize, -, hrss⟩ := updateProcStatus_lines (by decide) h hn (by omega)
  rw [hsum] at hrss
  exact ⟨stat, hok, hsize.trans (by decide), hrss.trans (by decide +kernel)⟩

end Acdc
