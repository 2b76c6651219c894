import Mathlib.Data.List.Infix
import Mathlib.Data.List.TakeWhile
import Mathlib.Algebra.Group.Int.Defs
import Mathlib.Algebra.Order.Group.Nat

/-!
# Strings of the C library

Bytes up to a terminating NUL, with the functions of `string.h`, `stdlib.h` and `stdio.h` that
search them, read numbers from them and read them line by line. A number outside `long` leaves
`atol` undefined.
-/

namespace CString

/-- The bytes of a text. -/
def ascii (s : List Char) : List UInt8 := s.map Char.toUInt8

/-- The string in a buffer. -/
def text (buf : List UInt8) : List UInt8 := buf.takeWhile (· ≠ 0)

theorem length_text_le (buf : List UInt8) : (text buf).length ≤ buf.length :=
  (List.takeWhile_prefix _).length_le

/-- A string has no NUL. -/
theorem notMem_text (buf : List UInt8) : 0 ∉ text buf := by
  intro h
  exact absurd (List.mem_takeWhile_imp h) (by decide)

theorem text_eq_self {s : List UInt8} (h : 0 ∉ s) : text s = s := by
  apply List.takeWhile_eq_self_iff.mpr
  intro c hc
  exact decide_eq_true fun hz ↦ h (hz ▸ hc)

/-! ### Search -/

/-- The string from the first occurrence of a needle on. -/
def strstr (needle : List UInt8) : List UInt8 → Option (List UInt8)
  | [] => if needle = [] then some [] else none
  | c :: s => if needle.isPrefixOf (c :: s) then some (c :: s) else strstr needle s

variable {needle s r : List UInt8} {c : UInt8}

/-- What is found is a part of the string. -/
theorem strstr_suffix (h : strstr needle s = some r) : r <:+ s := by
  induction s with
  | nil =>
    rw [strstr] at h
    split at h
    · cases h
      exact List.suffix_rfl
    · cases h
  | cons c s ih =>
    rw [strstr] at h
    split at h
    · cases h
      exact List.suffix_rfl
    · exact (ih h).trans (List.suffix_cons c s)

/-- A longer needle that occurs where a part of it occurs first occurs first there. -/
theorem strstr_of_prefix {needle' : List UInt8} (h : strstr needle s = some r)
    (hn : needle <+: needle') (hr : needle' <+: r) (hne : needle' ≠ []) :
    strstr needle' s = some r := by
  induction s with
  | nil =>
    rw [strstr] at h
    split at h
    · cases h
      exact absurd (List.prefix_nil.mp hr) hne
    · cases h
  | cons c s ih =>
    rw [strstr] at h ⊢
    split at h
    · cases h
      rw [if_pos (List.isPrefixOf_iff_prefix.mpr hr)]
    · next hp =>
      rw [if_neg fun hp' ↦ hp (List.isPrefixOf_iff_prefix.mpr
        (hn.trans (List.isPrefixOf_iff_prefix.mp hp')))]
      exact ih h

/-! ### Numbers -/

/-- White space of the C locale. -/
def isspace (c : UInt8) : Bool := c == 32 || (9 ≤ c && c ≤ 13)

def isdigit (c : UInt8) : Bool := 48 ≤ c && c ≤ 57

/-- The number of the digits at the start of a string. -/
def decimal (s : List UInt8) : Nat :=
  (s.takeWhile isdigit).foldl (fun n c ↦ 10 * n + (c.toNat - 48)) 0

/-- A sign and the rest. -/
def sign : List UInt8 → Bool × List UInt8
  | 43 :: s => (false, s)
  | 45 :: s => (true, s)
  | s => (false, s)

/-- The number at the start of a string, after white space and a sign. -/
def atol (s : List UInt8) : Option Int64 :=
  let (negative, digits) := sign (s.dropWhile isspace)
  let z : Int := if negative then -decimal digits else decimal digits
  if -2 ^ 63 ≤ z ∧ z < 2 ^ 63 then some (Int64.ofInt z) else none

/-- A number without white space and sign. -/
theorem atol_of_isdigit (hc : isdigit c = true) (hlt : decimal (c :: s) < 2 ^ 63) :
    atol (c :: s) = some (Int64.ofInt (decimal (c :: s))) := by
  have hspace : isspace c = false := by
    simp only [isdigit, Bool.and_eq_true, decide_eq_true_eq, UInt8.le_iff_toNat_le] at hc
    simp only [isspace, Bool.or_eq_false_iff, beq_eq_false_iff_ne, Bool.and_eq_false_iff,
      decide_eq_false_iff_not, UInt8.le_iff_toNat_le, ne_eq, ← UInt8.toNat_inj]
    simp only [UInt8.reduceToNat] at hc ⊢
    omega
  have hsign : sign (c :: s) = (false, c :: s) := by
    rw [sign]
    · intro s' h
      cases h
      cases hc
    · intro s' h
      cases h
      cases hc
  rw [atol, List.dropWhile_cons_of_neg (by rw [hspace]; decide), hsign]
  apply if_pos
  simp only [Bool.false_eq_true, if_false]
  omega

/-- The number at the start of a string, after white space and a sign. -/
def number (s : List UInt8) : Int :=
  let (negative, digits) := sign (s.dropWhile isspace)
  if negative then -decimal digits else decimal digits

/-- That number as an `int`. -/
def atoi (s : List UInt8) : Option Int32 :=
  if -2 ^ 31 ≤ number s ∧ number s < 2 ^ 31 then some (Int32.ofInt (number s)) else none

theorem atol_eq (s : List UInt8) :
    atol s = if -2 ^ 63 ≤ number s ∧ number s < 2 ^ 63 then some (Int64.ofInt (number s))
      else none :=
  rfl

/-- The text of a number, as `printf` writes it. -/
def format (z : Int) : List UInt8 :=
  if z < 0 then 45 :: ascii (Nat.toDigits 10 z.natAbs) else ascii (Nat.toDigits 10 z.natAbs)

private theorem isdigit_toUInt8 {c : Char} (hc : c.isDigit = true) :
    isdigit c.toUInt8 = true ∧ c.toUInt8.toNat = c.toNat := by
  rw [Char.isDigit_iff_toNat] at hc
  simp only [Char.reduceToNat] at hc
  have hval : c.toUInt8.toNat = c.toNat := by
    have hmod : c.toUInt8.toNat = c.toNat % 256 := rfl
    omega
  constructor
  · simp only [isdigit, Bool.and_eq_true, decide_eq_true_eq, UInt8.le_iff_toNat_le, hval]
    exact hc
  · exact hval

private theorem isDigit_of_mem {n : Nat} {c : Char} (hc : c ∈ Nat.toDigits 10 n) :
    c.isDigit = true :=
  Nat.isDigit_of_mem_toDigits (by decide) (by decide) hc

/-- Digits are read up to the byte behind them. -/
theorem decimal_toDigits (n : Nat) (hs : ∀ c ∈ s.head?, isdigit c = false) :
    decimal (ascii (Nat.toDigits 10 n) ++ s) = n := by
  have htake : (ascii (Nat.toDigits 10 n) ++ s).takeWhile isdigit = ascii (Nat.toDigits 10 n) := by
    rw [List.takeWhile_append_of_pos]
    · cases s with
      | nil => simp
      | cons c s => rw [List.takeWhile_cons_of_neg (by simp [hs c rfl]), List.append_nil]
    · intro c hc
      obtain ⟨d, hd, rfl⟩ := List.mem_map.mp hc
      exact (isdigit_toUInt8 (isDigit_of_mem hd)).1
  calc decimal (ascii (Nat.toDigits 10 n) ++ s)
      = (Nat.toDigits 10 n).foldl (fun k c ↦ 10 * k + (c.toUInt8.toNat - 48)) 0 := by
        rw [decimal, htake, ascii, List.foldl_map]
    _ = (Nat.toDigits 10 n).foldl (fun k c ↦ 10 * k + (c.toNat - 48)) 0 := by
        apply List.foldl_ext
        intro k c hc
        rw [(isdigit_toUInt8 (isDigit_of_mem hc)).2]
    _ = n := Nat.ofDigitChars_ten_toDigits

private theorem isspace_of_isdigit {c : UInt8} (hc : isdigit c = true) :
    isspace c = false ∧ c ≠ 43 ∧ c ≠ 45 := by
  simp only [isdigit, Bool.and_eq_true, decide_eq_true_eq, UInt8.le_iff_toNat_le] at hc
  simp only [isspace, Bool.or_eq_false_iff, beq_eq_false_iff_ne, Bool.and_eq_false_iff,
    decide_eq_false_iff_not, UInt8.le_iff_toNat_le, ne_eq, ← UInt8.toNat_inj]
  simp only [UInt8.reduceToNat] at hc ⊢
  omega

/-- A number is read from its text, up to the byte behind it. -/
theorem number_format_append (z : Int) (hs : ∀ c ∈ s.head?, isdigit c = false) :
    number (format z ++ s) = z := by
  have hdec := decimal_toDigits z.natAbs hs
  by_cases hz : z < 0
  · rw [format, if_pos hz, List.cons_append, number,
      List.dropWhile_cons_of_neg (by decide), sign]
    simp only [if_true, hdec]
    omega
  · obtain ⟨c, ds, hc⟩ := List.exists_cons_of_ne_nil (Nat.toDigits_ne_nil (n := z.natAbs) (b := 10))
    have hd : c.isDigit = true := isDigit_of_mem (hc ▸ List.mem_cons_self)
    obtain ⟨hspace, hplus, hminus⟩ := isspace_of_isdigit (isdigit_toUInt8 hd).1
    rw [format, if_neg hz]
    rw [hc, ascii, List.map_cons, List.cons_append] at hdec ⊢
    rw [number, List.dropWhile_cons_of_neg (by simp [hspace]), sign]
    · simp only [Bool.false_eq_true, if_false, hdec]
      omega
    · exact fun t h ↦ absurd (List.cons.inj h).1 hplus
    · exact fun t h ↦ absurd (List.cons.inj h).1 hminus

theorem format_ne_nil (z : Int) : format z ≠ [] := by
  rw [format]
  split
  · exact List.cons_ne_nil _ _
  · exact fun h ↦ Nat.toDigits_ne_nil (List.map_eq_nil_iff.mp h)

/-- A text of a number has digits and a sign only. -/
theorem notMem_format (hc : isdigit c = false) (h45 : c ≠ 45) (z : Int) : c ∉ format z := by
  have hdigits : c ∉ ascii (Nat.toDigits 10 z.natAbs) := by
    intro h
    obtain ⟨d, hd, rfl⟩ := List.mem_map.mp h
    rw [(isdigit_toUInt8 (isDigit_of_mem hd)).1] at hc
    cases hc
  rw [format]
  split
  · exact fun h ↦ (List.mem_cons.mp h).elim h45 hdigits
  · exact hdigits

theorem number_format (z : Int) : number (format z) = z := by
  simpa using number_format_append z (s := [])

theorem atoi_format (x : Int32) : atoi (format x.toInt) = some x := by
  rw [atoi, number_format, if_pos ⟨x.le_toInt, x.toInt_lt⟩, Int32.ofInt_toInt]

theorem atol_format (x : Int64) : atol (format x.toInt) = some x := by
  rw [atol_eq, number_format, if_pos ⟨x.le_toInt, x.toInt_lt⟩, Int64.ofInt_toInt]

/-! ### Tokens -/

/-- What the calls of `strtok` find between the delimiters. -/
def strtok (delimiter : UInt8) (s : List UInt8) : List (List UInt8) :=
  (s.splitOn delimiter).filter (· ≠ [])

/-- The first token, up to a delimiter. -/
theorem strtok_append {t : List UInt8} (hne : t ≠ []) (ht : c ∉ t) (s : List UInt8) :
    strtok c (t ++ c :: s) = t :: strtok c s := by
  rw [strtok, List.splitOn_append_cons_self_of_not_mem ht,
    List.filter_cons_of_pos (by simpa using hne)]
  rfl

/-- Delimiters are skipped. -/
theorem strtok_skip (k : Nat) (s : List UInt8) :
    strtok c (List.replicate k c ++ s) = strtok c s := by
  induction k with
  | zero => rfl
  | succ k ih =>
    rw [List.replicate_succ, List.cons_append, strtok, ← List.nil_append (c :: _),
      List.splitOn_append_cons_self_of_not_mem List.not_mem_nil,
      List.filter_cons_of_neg (by simp)]
    exact ih

/-! ### Lines -/

/-- At most `room` bytes, up to a newline, and the rest. -/
def takeLine : Nat → List UInt8 → List UInt8 × List UInt8
  | 0, s => ([], s)
  | _ + 1, [] => ([], [])
  | room + 1, c :: s =>
    if c = 10 then ([c], s) else (c :: (takeLine room s).1, (takeLine room s).2)

/-- One line into a buffer of `size` bytes with its NUL, and the rest of the stream. -/
def fgets (size : Nat) (stream : List UInt8) : Option (List UInt8 × List UInt8) :=
  if stream = [] then none else some (takeLine (size - 1) stream)

/-- What a number of calls of `fgets` returns. -/
def fgetsLines (size : Nat) : Nat → List UInt8 → List (List UInt8)
  | 0, _ => []
  | calls + 1, stream =>
    match fgets size stream with
    | none => []
    | some (line, rest) => line :: fgetsLines size calls rest

/-- All lines of a stream. -/
def lines (size : Nat) (stream : List UInt8) : List (List UInt8) :=
  fgetsLines size stream.length stream

variable {size room : Nat} {stream line rest : List UInt8}

theorem takeLine_append (room : Nat) (s : List UInt8) :
    (takeLine room s).1 ++ (takeLine room s).2 = s := by
  induction room generalizing s with
  | zero => rw [takeLine, List.nil_append]
  | succ room ih =>
    cases s with
    | nil => rw [takeLine, List.append_nil]
    | cons c s =>
      rw [takeLine]
      split
      · rfl
      · exact congrArg (c :: ·) (ih s)

theorem length_takeLine_le (room : Nat) (s : List UInt8) : (takeLine room s).1.length ≤ room := by
  induction room generalizing s with
  | zero => exact Nat.zero_le 0
  | succ room ih =>
    cases s with
    | nil => exact Nat.zero_le _
    | cons c s =>
      rw [takeLine]
      split
      · exact Nat.succ_le_succ (Nat.zero_le _)
      · exact Nat.succ_le_succ (ih s)

/-- There is a line as long as there are bytes. -/
theorem fgets_eq_some (h : fgets size stream = some (line, rest)) :
    stream ≠ [] ∧ (takeLine (size - 1) stream) = (line, rest) := by
  rw [fgets] at h
  split at h
  · cases h
  · next hne => exact ⟨hne, Option.some.inj h⟩

/-- A buffer of at least two bytes takes a byte from a stream that has one. -/
theorem length_rest_lt (hsize : 2 ≤ size) (h : fgets size stream = some (line, rest)) :
    rest.length < stream.length := by
  obtain ⟨hne, h⟩ := fgets_eq_some h
  obtain ⟨room, hroom⟩ : ∃ room, size - 1 = room + 1 := ⟨size - 2, by omega⟩
  cases stream with
  | nil => exact absurd rfl hne
  | cons c s =>
    have happ := congrArg List.length (takeLine_append room s)
    rw [List.length_append] at happ
    rw [hroom, takeLine] at h
    split at h
    · cases h
      exact Nat.lt_succ_self _
    · cases h
      rw [List.length_cons]
      omega

/-- Lines have room for their NUL. -/
theorem length_lt_of_mem_lines (hsize : 0 < size) (h : line ∈ lines size stream) :
    line.length < size := by
  rw [lines] at h
  generalize stream.length = calls at h
  induction calls generalizing stream with
  | zero => cases h
  | succ calls ih =>
    rw [fgetsLines] at h
    split at h
    · cases h
    · next first rest hf =>
      obtain rfl | h := List.mem_cons.mp h
      · have hle := length_takeLine_le (size - 1) stream
        rw [(fgets_eq_some hf).2] at hle
        dsimp only at hle
        omega
      · exact ih h

/-- The calls of `fgets` come to the end of the stream. -/
theorem flatten_lines (hsize : 2 ≤ size) (stream : List UInt8) :
    (lines size stream).flatten = stream := by
  have hcalls (calls : Nat) (hlen : stream.length ≤ calls) :
      (fgetsLines size calls stream).flatten = stream := by
    induction calls generalizing stream with
    | zero => exact (List.eq_nil_of_length_eq_zero (Nat.le_zero.mp hlen)).symm
    | succ calls ih =>
      rw [fgetsLines]
      split
      · next hf =>
        rw [fgets] at hf
        split at hf
        · next hnil => exact hnil.symm
        · cases hf
      · next line rest hf =>
        have hlt := length_rest_lt hsize hf
        have happ := takeLine_append (size - 1) stream
        rw [(fgets_eq_some hf).2] at happ
        rw [List.flatten_cons, ih rest (by omega)]
        exact happ
  exact hcalls _ le_rfl

/-- A line that has room is read as a whole. -/
theorem takeLine_eq {l : List UInt8} (hl : 10 ∉ l) (hlen : l.length < room) (s : List UInt8) :
    takeLine room (l ++ 10 :: s) = (l ++ [10], s) := by
  induction l generalizing room with
  | nil =>
    obtain ⟨room, rfl⟩ : ∃ k, room = k + 1 := ⟨room - 1, by simp at hlen; omega⟩
    rw [List.nil_append, takeLine, if_pos rfl, List.nil_append]
  | cons c l ih =>
    rw [List.mem_cons, not_or] at hl
    rw [List.length_cons] at hlen
    obtain ⟨room, rfl⟩ : ∃ k, room = k + 1 := ⟨room - 1, by omega⟩
    rw [List.cons_append, takeLine, if_neg fun h ↦ hl.1 h.symm, ih hl.2 (by omega)]
    rfl

theorem length_le_flatMap (ls : List (List UInt8)) :
    ls.length ≤ (ls.flatMap (· ++ [10])).length := by
  induction ls with
  | nil => exact Nat.zero_le _
  | cons l ls ih =>
    rw [List.flatMap_cons, List.length_append, List.length_append, List.length_cons,
      List.length_singleton]
    omega

/-- Lines that have room are read one after the other. -/
theorem lines_flatMap {ls : List (List UInt8)} (h : ∀ l ∈ ls, 10 ∉ l ∧ l.length + 1 < size) :
    lines size (ls.flatMap (· ++ [10])) = ls.map (· ++ [10]) := by
  have hcalls (calls : Nat) (hlen : ls.length ≤ calls) :
      fgetsLines size calls (ls.flatMap (· ++ [10])) = ls.map (· ++ [10]) := by
    induction ls generalizing calls with
    | nil => cases calls <;> rfl
    | cons l ls ih =>
      obtain ⟨⟨hl, hroom⟩, hls⟩ := List.forall_mem_cons.mp h
      rw [List.length_cons] at hlen
      obtain ⟨calls, rfl⟩ : ∃ k, calls = k + 1 := ⟨calls - 1, by omega⟩
      have hline : fgets size ((l ++ [10]) ++ ls.flatMap (· ++ [10])) =
          some (l ++ [10], ls.flatMap (· ++ [10])) := by
        rw [fgets, if_neg (by simp), List.append_assoc]
        exact congrArg some (takeLine_eq hl (by omega) _)
      rw [List.flatMap_cons, fgetsLines, hline, List.map_cons]
      exact congrArg _ (ih hls calls (by omega))
  exact hcalls _ (length_le_flatMap ls)

end CString
