import Acdc.Base.CString
import Acdc.Base.Getopt
import Acdc.Base.LastValue
import Acdc.Params

/-!
# Command line

The options that `main` reads, `src/main.c:241–350`, before it checks them and chooses the
allocator. Options that `getopt` reports as invalid are ignored. The last one of an option counts,
whatever the order of the options and however they are written.
-/

namespace Acdc

open CString Getopt LastValue

/-- The record that `main` fills, with the name of the allocator. -/
structure MainOptions extends GlobalOptions where
  allocatorName : List UInt8
  deriving DecidableEq, Repr

/-- Defaults of `src/main.c:set_default_params`. -/
def MainOptions.setDefaultParams : MainOptions where
  toGlobalOptions := GlobalOptions.setDefaultParams
  allocatorName := ascii ['U', 'N', 'D', 'E', 'F', 'I', 'N', 'E', 'D']

/-- How the process exits before the run, or what it leaves undefined. -/
inductive MainStop where
  | usage
  | parameterError
  | undefined
  deriving DecidableEq, Repr

/-- `src/main.c:248`. -/
def optString : List Char :=
  ['a', 'f', 'n', ':', 't', ':', 'd', ':', 'r', ':', 'H', ':', 'l', ':', 'L', ':', 'D', ':',
    'g', ':', 's', ':', 'S', ':', 'F', ':', 'N', ':', 'C', ':', 'O', 'R', ':', 'T', ':', 'q', ':',
    'i', ':', 'w', ':', 'A', 'P', ':', 'v', 'h']

/-- The number of an argument that is read with `atoi`. -/
def intArgument (optarg : List UInt8) : Except MainStop Int32 :=
  match atoi optarg with
  | some x => .ok x
  | none => .error .undefined

/-- The same for an option of type `size_t`. -/
def sizeArgument (optarg : List UInt8) : Except MainStop UInt64 := do
  let x ← intArgument optarg
  return x.toInt64.toUInt64

/-- The number of an argument that is read with `atol`. -/
def longArgument (optarg : List UInt8) : Except MainStop UInt64 :=
  match atol optarg with
  | some x => .ok x.toUInt64
  | none => .error .undefined

/-- The switch of `src/main.c:252–346`. -/
def setOption (o : MainOptions) : Opt → Except MainStop MainOptions
  | .flag 'a' => .ok { o with mode := .acdc }
  | .flag 'f' => .ok { o with mode := .falseSharing }
  | .argument 'n' optarg => do return { o with numThreads := ← intArgument optarg }
  | .argument 't' optarg => do return { o with timeQuantum := ← longArgument optarg }
  | .argument 'd' optarg => do return { o with benchmarkDuration := ← intArgument optarg }
  | .argument 'r' optarg => do return { o with seed := ← intArgument optarg }
  | .argument 'H' optarg => do return { o with metadataHeapSz := ← sizeArgument optarg }
  | .argument 'l' optarg => do return { o with minLiveness := ← intArgument optarg }
  | .argument 'L' optarg => do return { o with maxLiveness := ← intArgument optarg }
  | .argument 'D' optarg => do return { o with deallocationDelay := ← intArgument optarg }
  | .argument 'g' optarg => do return { o with maxTimeGap := ← intArgument optarg }
  | .argument 's' optarg => do return { o with minObjectSc := ← intArgument optarg }
  | .argument 'S' optarg => do return { o with maxObjectSc := ← intArgument optarg }
  | .argument 'F' optarg => do return { o with fixedNumberOfObjects := ← intArgument optarg }
  | .argument 'N' optarg => do return { o with nodeBufferSize := ← sizeArgument optarg }
  | .argument 'C' optarg => do return { o with classBufferSize := ← sizeArgument optarg }
  | .flag 'O' => .ok { o with sharedObjects := 1 }
  | .argument 'R' optarg => do return { o with sharedObjectsRatio := ← intArgument optarg }
  | .argument 'T' optarg => do return { o with receivingThreadsRatio := ← intArgument optarg }
  | .argument 'q' optarg => do return { o with listBasedRatio := ← intArgument optarg }
  | .argument 'i' optarg => do return { o with writeIterations := ← intArgument optarg }
  | .argument 'w' optarg => do return { o with writeAccessRatio := ← intArgument optarg }
  | .flag 'A' => .ok { o with accessLiveObjects := 1 }
  | .argument 'P' optarg => .ok { o with allocatorName := optarg }
  | .flag 'v' =>
    if FitsInt (o.verbosity.toInt + 1) then .ok { o with verbosity := o.verbosity + 1 }
    else .error .undefined
  | .flag 'h' => .error .usage
  | _ => .ok o

/-- The loop of `src/main.c:250–348` over what `getopt` returns. -/
def setOptions (opts : List Opt) : Except MainStop MainOptions :=
  opts.foldlM setOption MainOptions.setDefaultParams

/-- The options of the words of a command line, without the name of the program. -/
def commandLine (permute : Bool) (args : List (List UInt8)) : Except MainStop MainOptions :=
  setOptions (options (arity optString) permute args)

/-- Which functions `acdc_alloc` and `acdc_free` are. -/
inductive AllocationPointers where
  | malloc
  | nulloc
  deriving DecidableEq, Repr

/-- `src/main.c:210–224`. A name is told by its start. -/
def setAllocationPointers (o : MainOptions) : AllocationPointers × MainOptions :=
  let isNulloc := (ascii ['n', 'u', 'l', 'l', 'o', 'c']).isPrefixOf o.allocatorName
  let isCompact := (ascii ['c', 'o', 'm', 'p', 'a', 'c', 't']).isPrefixOf o.allocatorName
  (if isNulloc then .nulloc else .malloc,
    { o with
      doBaselineRss := if isNulloc then 1 else o.doBaselineRss
      useCompactAllocation := if isCompact then 1 else o.useCompactAllocation })

/-- The options and the allocator of a run, `src/main.c:241–354`. -/
def main (estimate : GlobalOptions → Option (UInt64 × UInt64)) (permute : Bool)
    (args : List (List UInt8)) : Except MainStop (AllocationPointers × MainOptions) := do
  let o ← commandLine permute args
  match checkParams estimate o.toGlobalOptions with
  | none => .error .parameterError
  | some p => return setAllocationPointers { o with toGlobalOptions := p }

/-! ### What options say -/

/-- That argument as an `int`. -/
def intOf (c : Char) (opt : Opt) : Option Int32 := (argumentOf c opt).bind atoi

/-- That argument as an `int` that is stored as a `size_t`. -/
def sizeOf (c : Char) (opt : Opt) : Option UInt64 :=
  (argumentOf c opt).bind fun optarg ↦ (atoi optarg).map fun x ↦ x.toInt64.toUInt64

/-- That argument as a `long` that is stored as an `unsigned long`. -/
def longOf (c : Char) (opt : Opt) : Option UInt64 :=
  (argumentOf c opt).bind fun optarg ↦ (atol optarg).map Int64.toUInt64

/-- The mode that an option sets. -/
def modeOf : Opt → Option BenchmarkMode
  | .flag c => if c = 'a' then some .acdc else if c = 'f' then some .falseSharing else none
  | _ => none

/-- A flag sets its field. -/
def flagOf (c : Char) (opt : Opt) : Option Int32 := if opt = .flag c then some 1 else none

/-- The record that options describe, over defaults: each field has the value of the last option
that sets it, whatever the order of the options. -/
def settings (o : MainOptions) (opts : List Opt) : MainOptions :=
  { o with
    mode := last modeOf o.mode opts
    numThreads := last (intOf 'n') o.numThreads opts
    timeQuantum := last (longOf 't') o.timeQuantum opts
    benchmarkDuration := last (intOf 'd') o.benchmarkDuration opts
    seed := last (intOf 'r') o.seed opts
    metadataHeapSz := last (sizeOf 'H') o.metadataHeapSz opts
    minLiveness := last (intOf 'l') o.minLiveness opts
    maxLiveness := last (intOf 'L') o.maxLiveness opts
    deallocationDelay := last (intOf 'D') o.deallocationDelay opts
    maxTimeGap := last (intOf 'g') o.maxTimeGap opts
    minObjectSc := last (intOf 's') o.minObjectSc opts
    maxObjectSc := last (intOf 'S') o.maxObjectSc opts
    fixedNumberOfObjects := last (intOf 'F') o.fixedNumberOfObjects opts
    nodeBufferSize := last (sizeOf 'N') o.nodeBufferSize opts
    classBufferSize := last (sizeOf 'C') o.classBufferSize opts
    sharedObjects := last (flagOf 'O') o.sharedObjects opts
    sharedObjectsRatio := last (intOf 'R') o.sharedObjectsRatio opts
    receivingThreadsRatio := last (intOf 'T') o.receivingThreadsRatio opts
    listBasedRatio := last (intOf 'q') o.listBasedRatio opts
    writeIterations := last (intOf 'i') o.writeIterations opts
    writeAccessRatio := last (intOf 'w') o.writeAccessRatio opts
    accessLiveObjects := last (flagOf 'A') o.accessLiveObjects opts
    allocatorName := last (argumentOf 'P') o.allocatorName opts
    verbosity := o.verbosity + Int32.ofNat (opts.count (.flag 'v')) }

/-- The letters whose arguments are read with `atoi`. -/
def intLetters : List Char :=
  ['n', 'd', 'r', 'H', 'l', 'L', 'D', 'g', 's', 'S', 'F', 'N', 'C', 'R', 'T', 'q', 'i', 'w']

/-- An argument has a value of the type that its option reads. -/
def HasValue (opt : Opt) : Prop :=
  (∀ c ∈ intLetters, ∀ optarg ∈ argumentOf c opt, (atoi optarg).isSome = true) ∧
    ∀ optarg ∈ argumentOf 't' opt, (atol optarg).isSome = true

/-- The options of a process that goes on. -/
structure Accepted (o : MainOptions) (opts : List Opt) : Prop where
  noUsage : .flag 'h' ∉ opts
  hasValue : ∀ opt ∈ opts, HasValue opt
  verbosity : FitsInt (o.verbosity.toInt + opts.count (.flag 'v'))

variable {opts : List Opt} {opt : Opt} {o p : MainOptions} {c d : Char} {optarg : List UInt8}

theorem fitsInt_toInt (x : Int32) : FitsInt x.toInt := ⟨x.le_toInt, x.toInt_lt⟩

theorem accepted_singleton : Accepted o [opt] ↔ opt ≠ .flag 'h' ∧ HasValue opt ∧
    FitsInt (o.verbosity.toInt + if opt = .flag 'v' then 1 else 0) := by
  have hcount : ([opt].count (.flag 'v') : Int) = if opt = .flag 'v' then 1 else 0 := by
    rw [List.count_singleton]
    split <;> simp_all
  constructor
  · intro h
    refine ⟨fun he ↦ h.noUsage (he ▸ List.mem_singleton_self _), ?_, ?_⟩
    · exact h.hasValue opt (List.mem_singleton_self opt)
    · rw [← hcount]
      exact h.verbosity
  · rintro ⟨hne, hv, hfit⟩
    refine ⟨fun h ↦ hne (List.mem_singleton.mp h).symm, ?_, hcount ▸ hfit⟩
    intro opt' h
    rw [List.mem_singleton.mp h]
    exact hv

theorem modeOf_eq_none (ha : opt ≠ .flag 'a') (hf : opt ≠ .flag 'f') : modeOf opt = none := by
  cases opt with
  | flag c =>
    rw [modeOf, if_neg fun hc ↦ ha (congrArg Opt.flag hc),
      if_neg fun hc ↦ hf (congrArg Opt.flag hc)]
  | _ => rfl

theorem setOption_eq_ok : setOption o opt = .ok p ↔ Accepted o [opt] ∧ p = settings o [opt] := by
  have hf := fitsInt_toInt o.verbosity
  rw [accepted_singleton, settings]
  unfold setOption
  split
  -- options with a number of type `int`
  case h_3 s | h_5 s | h_6 s | h_8 s | h_9 s | h_10 s | h_11 s | h_12 s | h_13 s | h_14 s |
      h_18 s | h_19 s | h_20 s | h_21 s | h_22 s =>
    cases h : atoi s with
    | none => simp [intArgument, h, HasValue, intLetters]
    | some x =>
      simp [intArgument, h, HasValue, intLetters, intOf, sizeOf, longOf, modeOf, flagOf, hf]
      exact eq_comm
  case h_7 s | h_15 s | h_16 s =>
    cases h : atoi s with
    | none => simp [sizeArgument, intArgument, h, HasValue, intLetters]
    | some x =>
      simp [sizeArgument, intArgument, h, HasValue, intLetters, intOf, sizeOf, longOf, modeOf,
        flagOf, hf]
      exact eq_comm
  case h_4 s =>
    cases h : atol s with
    | none => simp [longArgument, h, HasValue, intLetters]
    | some x =>
      simp [longArgument, h, HasValue, intLetters, intOf, sizeOf, longOf, modeOf, flagOf, hf]
      exact eq_comm
  case h_1 | h_2 | h_17 | h_23 | h_24 =>
    simp [HasValue, intLetters, intOf, sizeOf, longOf, modeOf, flagOf, hf]
    exact eq_comm
  case h_25 =>
    simp [HasValue, intLetters, intOf, sizeOf, longOf, modeOf, flagOf]
    split
    · simp [*]
      exact eq_comm
    · simp [*]
  case h_26 => simp
  -- another option
  case h_27 =>
    simp only [imp_false] at *
    simp [HasValue, intLetters, argumentOf_eq_none, modeOf_eq_none, intOf, sizeOf, longOf,
      flagOf, *]
    exact eq_comm

theorem settings_append (o : MainOptions) (opts opts' : List Opt) :
    settings o (opts ++ opts') = settings (settings o opts) opts' := by
  simp only [settings, last_append, List.count_append, Int32.ofNat_add, Int32.add_assoc]

theorem verbosity_settings (h : Accepted o opts) :
    (settings o opts).verbosity.toInt = o.verbosity.toInt + opts.count (.flag 'v') := by
  obtain ⟨hlo, hhi⟩ := h.verbosity
  calc (settings o opts).verbosity.toInt
      = (Int32.ofInt (o.verbosity.toInt + opts.count (.flag 'v'))).toInt := by
        rw [Int32.ofInt_add, Int32.ofInt_toInt, Int32.ofInt_eq_ofNat, settings]
    _ = o.verbosity.toInt + opts.count (.flag 'v') := Int32.toInt_ofInt_of_le hlo hhi

theorem accepted_append (o : MainOptions) (opts opts' : List Opt) :
    Accepted o (opts ++ opts') ↔ Accepted o opts ∧ Accepted (settings o opts) opts' := by
  have hle := o.verbosity.le_toInt
  constructor
  · intro h
    obtain ⟨hlo, hhi⟩ := h.verbosity
    rw [List.count_append] at hlo hhi
    have hopts : Accepted o opts :=
      ⟨fun hh ↦ h.noUsage (List.mem_append_left _ hh),
        fun opt hopt ↦ h.hasValue opt (List.mem_append_left _ hopt), by omega, by omega⟩
    refine ⟨hopts, fun hh ↦ h.noUsage (List.mem_append_right _ hh),
      fun opt hopt ↦ h.hasValue opt (List.mem_append_right _ hopt), ?_⟩
    rw [verbosity_settings hopts]
    constructor <;> omega
  · rintro ⟨hopts, hopts'⟩
    obtain ⟨hlo, hhi⟩ := hopts'.verbosity
    rw [verbosity_settings hopts] at hlo hhi
    refine ⟨?_, ?_, ?_⟩
    · exact List.not_mem_append hopts.noUsage hopts'.noUsage
    · exact List.forall_mem_append.mpr ⟨hopts.hasValue, hopts'.hasValue⟩
    · rw [List.count_append]
      constructor <;> omega

/-- The process goes on with the record that its options describe. -/
theorem foldlM_setOption :
    opts.foldlM setOption o = .ok p ↔ Accepted o opts ∧ p = settings o opts := by
  induction opts generalizing o with
  | nil =>
    have hnil : settings o [] = o := by simp [settings]
    constructor
    · intro h
      cases h
      refine ⟨⟨List.not_mem_nil, fun _ h ↦ absurd h List.not_mem_nil, ?_⟩, hnil.symm⟩
      simpa using fitsInt_toInt _
    · rintro ⟨-, rfl⟩
      rw [hnil]
      rfl
  | cons opt opts ih =>
    have h : settings o (opt :: opts) = settings (settings o [opt]) opts :=
      settings_append o [opt] opts
    have ha : Accepted o (opt :: opts) ↔ Accepted o [opt] ∧ Accepted (settings o [opt]) opts :=
      accepted_append o [opt] opts
    rw [List.foldlM_cons, h, ha]
    constructor
    · intro h
      cases ho : setOption o opt with
      | error e =>
        rw [ho] at h
        cases h
      | ok o' =>
        rw [ho] at h
        obtain ⟨hopt, rfl⟩ := setOption_eq_ok.mp ho
        obtain ⟨hopts, rfl⟩ := ih.mp h
        exact ⟨⟨hopt, hopts⟩, rfl⟩
    · rintro ⟨⟨hopt, hopts⟩, rfl⟩
      rw [setOption_eq_ok.mpr ⟨hopt, rfl⟩]
      exact ih.mpr ⟨hopts, rfl⟩

/-- A command line consists of parts and an end. The process goes on with the record that the
options of the parts and of the end describe. -/
theorem commandLine_eq_ok_iff (permute : Bool) (args : List (List UInt8)) :
    ∃ (items : List Item) (rest : List (List UInt8)) (ends : List Opt),
      args = items.flatMap Item.words ++ rest ∧
      (∀ item ∈ items, item.Valid (arity optString) permute) ∧
      End (arity optString) permute rest ends ∧
      ∀ o, commandLine permute args = .ok o ↔
        Accepted .setDefaultParams (items.flatMap (Item.opts (arity optString)) ++ ends) ∧
          o = settings .setDefaultParams (items.flatMap (Item.opts (arity optString)) ++ ends) := by
  obtain ⟨items, rest, ends, rfl, hv, he⟩ := hasParts (arity optString) permute args
  refine ⟨items, rest, ends, rfl, hv, he, fun o ↦ ?_⟩
  rw [commandLine, setOptions, options_items hv, options_end he]
  exact foldlM_setOption

/-! ### Round trip -/

/-- The letters and arguments that give the numbers and the name of a record. -/
def MainOptions.arguments (o : MainOptions) : List (Char × List UInt8) :=
  [('n', format o.numThreads.toInt), ('t', format o.timeQuantum.toInt64.toInt),
    ('d', format o.benchmarkDuration.toInt), ('r', format o.seed.toInt),
    ('H', format o.metadataHeapSz.toInt64.toInt32.toInt), ('l', format o.minLiveness.toInt),
    ('L', format o.maxLiveness.toInt), ('D', format o.deallocationDelay.toInt),
    ('g', format o.maxTimeGap.toInt), ('s', format o.minObjectSc.toInt),
    ('S', format o.maxObjectSc.toInt), ('F', format o.fixedNumberOfObjects.toInt),
    ('N', format o.nodeBufferSize.toInt64.toInt32.toInt),
    ('C', format o.classBufferSize.toInt64.toInt32.toInt),
    ('R', format o.sharedObjectsRatio.toInt), ('T', format o.receivingThreadsRatio.toInt),
    ('q', format o.listBasedRatio.toInt), ('i', format o.writeIterations.toInt),
    ('w', format o.writeAccessRatio.toInt), ('P', o.allocatorName)]

/-- The letters that give the mode and the flags. -/
def MainOptions.flags (o : MainOptions) : List Char :=
  (match o.mode with | .acdc => 'a' | .falseSharing => 'f') ::
    (if o.sharedObjects = 1 then ['O'] else []) ++
    (if o.accessLiveObjects = 1 then ['A'] else []) ++
    List.replicate o.verbosity.toNatClampNeg 'v'

/-- The options that give a record. -/
def MainOptions.render (o : MainOptions) : List Opt :=
  o.flags.map .flag ++ o.arguments.map fun p ↦ .argument p.1 p.2

/-- A record that a command line can give. -/
structure Settable (o : MainOptions) : Prop where
  sharedObjects : o.sharedObjects = 0 ∨ o.sharedObjects = 1
  accessLiveObjects : o.accessLiveObjects = 0 ∨ o.accessLiveObjects = 1
  metadataHeapSz : o.metadataHeapSz.toInt64.toInt32.toInt64.toUInt64 = o.metadataHeapSz
  nodeBufferSize : o.nodeBufferSize.toInt64.toInt32.toInt64.toUInt64 = o.nodeBufferSize
  classBufferSize : o.classBufferSize.toInt64.toInt32.toInt64.toUInt64 = o.classBufferSize
  verbosity : 0 ≤ o.verbosity.toInt
  btreeBasedRatio : o.btreeBasedRatio = 0
  useCompactAllocation : o.useCompactAllocation = 0
  doBaselineRss : o.doBaselineRss = 0

theorem filterMap_argumentOf (o : MainOptions) (h : (c, optarg) ∈ o.arguments) :
    o.render.filterMap (argumentOf c) = [optarg] := by
  have hflags : (o.flags.map Opt.flag).filterMap (argumentOf c) = [] := by
    rw [List.filterMap_map]
    exact List.filterMap_eq_nil_iff.mpr fun _ _ ↦ rfl
  have hn : (o.arguments.map Prod.fst).Nodup := by
    simp only [MainOptions.arguments, List.map_cons, List.map_nil]
    decide
  rw [MainOptions.render, List.filterMap_append, hflags, List.nil_append]
  exact filterMap_argumentOf_of_nodup hn h

/-- Arguments set no flag. -/
theorem filterMap_flags {α : Type} (f : Opt → Option α) (o : MainOptions)
    (h : ∀ c optarg, f (.argument c optarg) = none) :
    o.render.filterMap f = o.flags.filterMap fun c ↦ f (.flag c) := by
  have hnil : (o.arguments.map fun p ↦ Opt.argument p.1 p.2).filterMap f = [] := by
    rw [List.filterMap_map]
    exact List.filterMap_eq_nil_iff.mpr fun _ _ ↦ h _ _
  rw [MainOptions.render, List.filterMap_append, hnil, List.append_nil, List.filterMap_map]
  rfl

theorem mem_flags (h : c ∈ o.flags) : c = 'a' ∨ c = 'f' ∨ c = 'O' ∨ c = 'A' ∨ c = 'v' := by
  simp only [MainOptions.flags, List.mem_append, List.mem_cons] at h
  obtain ((h | h) | h) | h := h
  · cases hm : o.mode <;> simp [hm] at h <;> simp [h]
  · split at h <;> simp_all
  · split at h <;> simp_all
  · simp [List.eq_of_mem_replicate h]

theorem filterMap_flagOf_O (o : MainOptions) :
    o.flags.filterMap (fun d ↦ flagOf 'O' (.flag d)) = if o.sharedObjects = 1 then [1] else [] := by
  by_cases h : o.sharedObjects = 1 <;> by_cases h' : o.accessLiveObjects = 1 <;>
    cases hm : o.mode <;> simp [MainOptions.flags, flagOf, h, h', hm]

theorem filterMap_flagOf_A (o : MainOptions) :
    o.flags.filterMap (fun d ↦ flagOf 'A' (.flag d)) =
      if o.accessLiveObjects = 1 then [1] else [] := by
  by_cases h : o.sharedObjects = 1 <;> by_cases h' : o.accessLiveObjects = 1 <;>
    cases hm : o.mode <;> simp [MainOptions.flags, flagOf, h, h', hm]

theorem count_render (o : MainOptions) :
    o.render.count (.flag 'v') = o.verbosity.toNatClampNeg := by
  have hargs : .flag 'v' ∉ o.arguments.map fun p ↦ Opt.argument p.1 p.2 := by
    intro h
    obtain ⟨p, -, hp⟩ := List.mem_map.mp h
    cases hp
  have hflags : o.flags.count 'v' = o.verbosity.toNatClampNeg := by
    by_cases h : o.sharedObjects = 1 <;> by_cases h' : o.accessLiveObjects = 1 <;>
      cases hm : o.mode <;> simp [MainOptions.flags, h, h', hm]
  rw [MainOptions.render, List.count_append, List.count_eq_zero_of_not_mem hargs, add_zero,
    List.count_map_of_injective _ _ fun c d h ↦ Opt.flag.inj h, hflags]

/-- The options of a record, in any order, describe it. -/
theorem settings_render (ho : Settable o) (hp : opts.Perm o.render) :
    settings .setDefaultParams opts = o := by
  -- an option has the value of its argument
  have hone {α : Type} {i : Nat} {c : Char} (f : List UInt8 → Option α) {optarg : List UInt8}
      (v : α) (h : o.arguments[i]? = some (c, optarg)) (hf : f optarg = some v) (x : α) :
      last (fun opt ↦ (argumentOf c opt).bind f) x opts = v := by
    apply last_of_perm
    apply (hp.filterMap _).trans
    rw [← List.filterMap_filterMap, filterMap_argumentOf o (List.mem_of_getElem? h),
      List.filterMap_cons_some hf]
    exact .refl _
  have hint (i : Nat) (c : Char) (v : Int32) (h : o.arguments[i]? = some (c, format v.toInt))
      (x : Int32) : last (intOf c) x opts = v :=
    hone atoi v h (atoi_format v) x
  have hsize (i : Nat) (c : Char) (v : UInt64)
      (h : o.arguments[i]? = some (c, format v.toInt64.toInt32.toInt))
      (hv : v.toInt64.toInt32.toInt64.toUInt64 = v) (x : UInt64) : last (sizeOf c) x opts = v := by
    apply hone _ v h
    rw [atoi_format, Option.map_some, hv]
  have hlong (x : UInt64) : last (longOf 't') x opts = o.timeQuantum := by
    apply hone _ o.timeQuantum (show o.arguments[1]? = _ from rfl)
    rw [atol_format, Option.map_some, UInt64.toUInt64_toInt64]
  have hname (x : List UInt8) : last (argumentOf 'P') x opts = o.allocatorName := by
    apply last_of_perm
    apply (hp.filterMap _).trans
    rw [filterMap_argumentOf o (List.mem_of_getElem? (show o.arguments[19]? = _ from rfl))]
  have hmode (x : BenchmarkMode) : last modeOf x opts = o.mode := by
    apply last_of_perm
    apply (hp.filterMap _).trans
    rw [filterMap_flags modeOf o fun _ _ ↦ rfl]
    cases hm : o.mode <;> simp [MainOptions.flags, hm, modeOf]
  have hflag (c : Char) (v : Int32) (hv : v = 0 ∨ v = 1)
      (h : o.flags.filterMap (fun d ↦ flagOf c (.flag d)) = if v = 1 then [1] else []) :
      last (flagOf c) 0 opts = v := by
    have hperm := hp.filterMap (flagOf c)
    rw [filterMap_flags (flagOf c) o fun _ _ ↦ rfl, h] at hperm
    obtain rfl | rfl := hv
    · exact last_of_perm_nil hperm 0
    · exact last_of_perm hperm 0
  have hO := hflag 'O' _ ho.sharedObjects (filterMap_flagOf_O o)
  have hA := hflag 'A' _ ho.accessLiveObjects (filterMap_flagOf_A o)
  have hv : 0 + Int32.ofNat (opts.count (.flag 'v')) = o.verbosity := by
    rw [hp.count_eq, count_render, Int32.zero_add, ← Int32.ofInt_eq_ofNat, Int32.toNatClampNeg,
      Int.toNat_of_nonneg ho.verbosity, Int32.ofInt_toInt]
  rw [settings]
  simp only [MainOptions.setDefaultParams, GlobalOptions.setDefaultParams,
    GOptions.setDefaultParams, hint 0 'n' o.numThreads rfl, hlong,
    hint 2 'd' o.benchmarkDuration rfl, hint 3 'r' o.seed rfl,
    hsize 4 'H' o.metadataHeapSz rfl ho.metadataHeapSz, hint 5 'l' o.minLiveness rfl,
    hint 6 'L' o.maxLiveness rfl, hint 7 'D' o.deallocationDelay rfl, hint 8 'g' o.maxTimeGap rfl,
    hint 9 's' o.minObjectSc rfl, hint 10 'S' o.maxObjectSc rfl,
    hint 11 'F' o.fixedNumberOfObjects rfl, hsize 12 'N' o.nodeBufferSize rfl ho.nodeBufferSize,
    hsize 13 'C' o.classBufferSize rfl ho.classBufferSize, hint 14 'R' o.sharedObjectsRatio rfl,
    hint 15 'T' o.receivingThreadsRatio rfl, hint 16 'q' o.listBasedRatio rfl,
    hint 17 'i' o.writeIterations rfl, hint 18 'w' o.writeAccessRatio rfl, hname, hmode, hO, hA, hv]
  obtain ⟨-, -, -, -, -, -, hbtree, hcompact, hbaseline⟩ := ho
  cases o with
  | mk o =>
    cases o with
    | mk g =>
      cases g
      cases hbtree
      cases hcompact
      cases hbaseline
      rfl

/-- The options of a record do not end the process. -/
theorem accepted_render (hp : opts.Perm o.render) :
    Accepted .setDefaultParams opts := by
  have hargs : ∀ q ∈ o.arguments, HasValue (.argument q.1 q.2) := by
    simp [MainOptions.arguments, HasValue, intLetters, atoi_format, atol_format,
      -Int64.toInt_toInt32]
  refine ⟨?_, ?_, ?_⟩
  · have hflags : 'h' ∉ o.flags := fun h ↦ absurd (mem_flags h) (by decide)
    simpa [hp.mem_iff, MainOptions.render] using hflags
  · intro opt hopt
    obtain h | h := List.mem_append.mp (hp.mem_iff.mp hopt)
    · obtain ⟨c, -, rfl⟩ := List.mem_map.mp h
      exact ⟨nofun, nofun⟩
    · obtain ⟨q, hq, rfl⟩ := List.mem_map.mp h
      exact hargs q hq
  · have hlt := o.verbosity.toNatClampNeg_lt
    rw [hp.count_eq, count_render, FitsInt]
    simp only [MainOptions.setDefaultParams, GlobalOptions.setDefaultParams, Int32.toInt_zero]
    omega

theorem arity_of_mem_arguments (h : (c, optarg) ∈ o.arguments) :
    Char.ofUInt8 c.toUInt8 = c ∧ c.toUInt8 ≠ 45 ∧ arity optString c = .argument := by
  have hletter : ∀ c ∈ o.arguments.map Prod.fst,
      Char.ofUInt8 c.toUInt8 = c ∧ c.toUInt8 ≠ 45 ∧ arity optString c = .argument := by
    simp only [MainOptions.arguments, List.map_cons, List.map_nil, List.forall_mem_cons,
      List.not_mem_nil, false_imp_iff, implies_true, and_true]
    and_intros <;> decide
  exact hletter _ (List.mem_map_of_mem h)

/-- The options of a record have letters of their own. -/
theorem own_render : ∀ opt ∈ o.render, opt.Own (arity optString) := by
  intro opt hopt
  obtain h | h := List.mem_append.mp hopt
  · obtain ⟨c, hc, rfl⟩ := List.mem_map.mp h
    obtain rfl | rfl | rfl | rfl | rfl := mem_flags hc <;> exact ⟨by decide, by decide, by decide⟩
  · obtain ⟨p, hp, rfl⟩ := List.mem_map.mp h
    exact arity_of_mem_arguments hp

/-- The record is read back, whatever the order of its options and however they are written. -/
theorem commandLine_render (ho : Settable o) {items : List Item} {permute : Bool}
    (hv : ∀ item ∈ items, item.Valid (arity optString) permute)
    (hp : (items.flatMap (Item.opts (arity optString))).Perm o.render) :
    commandLine permute (items.flatMap Item.words) = .ok o := by
  have h := options_items hv []
  rw [List.append_nil, options_end .nil, List.append_nil] at h
  rw [commandLine, setOptions, h]
  exact foldlM_setOption.mpr ⟨accepted_render hp, (settings_render ho hp).symm⟩

/-- Options give a record that other options can give again. -/
theorem settable_settings (h : Accepted .setDefaultParams opts) :
    Settable (settings .setDefaultParams opts) := by
  have hflag (c : Char) : last (flagOf c) 0 opts = 0 ∨ last (flagOf c) 0 opts = 1 := by
    obtain h | ⟨opt, -, h⟩ := last_mem (flagOf c) 0 opts
    · exact .inl h
    · right
      rw [flagOf] at h
      split at h
      · exact (Option.some.inj h).symm
      · cases h
  -- a size is an `int` that was converted
  have hsize (c : Char) :
      (last (sizeOf c) 0 opts).toInt64.toInt32.toInt64.toUInt64 = last (sizeOf c) 0 opts := by
    obtain h | ⟨opt, -, h⟩ := last_mem (sizeOf c) 0 opts
    · rw [h]
      decide
    · obtain ⟨optarg, -, h⟩ := Option.bind_eq_some_iff.mp h
      obtain ⟨x, -, h⟩ := Option.map_eq_some_iff.mp h
      rw [← h, Int64.toInt64_toUInt64, Int32.toInt32_toInt64]
  refine ⟨hflag 'O', hflag 'A', hsize 'H', hsize 'N', hsize 'C', ?_, rfl, rfl, rfl⟩
  have h0 : MainOptions.setDefaultParams.verbosity.toInt = 0 := rfl
  rw [verbosity_settings h, h0]
  omega

/-- Command lines give the settable records and no others, and each of them in every way to write
its options: in any order, apart or in clusters, with an argument in the same word or in the next,
and with operands between them. -/
theorem commandLine_roundTrip (permute : Bool) (o : MainOptions) :
    ((∃ args, commandLine permute args = .ok o) ↔ Settable o) ∧
      (Settable o → ∀ items : List Item, (∀ item ∈ items, item.Valid (arity optString) permute) →
        (items.flatMap (Item.opts (arity optString))).Perm o.render →
          commandLine permute (items.flatMap Item.words) = .ok o) := by
  refine ⟨⟨?_, fun ho ↦ ?_⟩, fun ho items hv hp ↦ commandLine_render ho hv hp⟩
  · rintro ⟨args, h⟩
    obtain ⟨ha, rfl⟩ := foldlM_setOption.mp h
    exact settable_settings ha
  · refine ⟨(o.render.map Opt.item).flatMap Item.words, commandLine_render ho ?_ ?_⟩
    · intro item hi
      obtain ⟨opt, hopt, rfl⟩ := List.mem_map.mp hi
      exact (own_render opt hopt).valid permute
    · rw [flatMap_item own_render]

/-- Two threads, sharing and one level of output. -/
def sharingTwo : MainOptions :=
  { MainOptions.setDefaultParams with
    numThreads := 2
    sharedObjects := 1
    verbosity := 1 }

/-- A line `-vOan2 - -t ...` of that record: a cluster with an argument, an operand and the other
arguments in words of their own. -/
def sharingTwoItems : List Item :=
  .attached (ascii ['v', 'O', 'a']) 110 (format 2) :: .operand [45] ::
    sharingTwo.arguments.tail.map fun p ↦ .separate [] p.1.toUInt8 p.2

theorem commandLine_roundTrip_two : Settable sharingTwo ∧
    commandLine true (sharingTwoItems.flatMap Item.words) = .ok sharingTwo := by
  have ho : Settable sharingTwo := by
    constructor <;> decide
  have hv : ∀ item ∈ sharingTwoItems, item.Valid (arity optString) true := by
    intro item hi
    obtain rfl | hi := List.mem_cons.mp hi
    · exact ⟨by unfold Item.Flags; decide +kernel, by decide, by decide⟩
    · obtain rfl | hi := List.mem_cons.mp hi
      · exact ⟨rfl, rfl⟩
      · obtain ⟨p, hp, rfl⟩ := List.mem_map.mp hi
        obtain ⟨hc, hne, ha⟩ := arity_of_mem_arguments (List.mem_of_mem_tail hp)
        exact ⟨nofun, by rw [hc, ha], fun _ ↦ hne⟩
  have hp : (sharingTwoItems.flatMap (Item.opts (arity optString))).Perm sharingTwo.render := by
    decide +kernel
  exact ⟨ho, (commandLine_roundTrip true sharingTwo).2 ho sharingTwoItems hv hp⟩

/-- The line `-vOn4 - -n 2 -- -A` sets two threads, sharing and one level of output. -/
example :
    (commandLine true [ascii ['-', 'v', 'O', 'n', '4'], ascii ['-'], ascii ['-', 'n'], ascii ['2'],
      ascii ['-', '-'], ascii ['-', 'A']]).toOption =
    some { MainOptions.setDefaultParams with
      numThreads := 2
      sharedObjects := 1
      verbosity := 1 } := by
  decide +kernel

/-! ### What reaches the run -/

/-- What the check sees to. -/
structure Checked (estimate : GlobalOptions → Option (UInt64 × UInt64)) (g : GlobalOptions) :
    Prop where
  ratio : 0 ≤ g.listBasedRatio.toInt ∧ 0 ≤ g.btreeBasedRatio.toInt ∧
    g.listBasedRatio.toInt + g.btreeBasedRatio.toInt = 100
  maxTimeGap : g.maxTimeGap < 0 → g.maxTimeGap = g.maxLiveness
  falseSharing : g.mode = .falseSharing → g.sharedObjects = 1 ∧ g.sharedObjectsRatio = 100 ∧
    g.receivingThreadsRatio = 100 ∧ g.accessLiveObjects = 0 ∧ g.writeAccessRatio = 100
  sizes : (g.metadataHeapSz ≠ 0 ∧ g.nodeBufferSize ≠ 0 ∧ g.classBufferSize ≠ 0) ∨
    ∃ q, estimate q = some (g.classBufferSize, g.nodeBufferSize)

/-- What the options of a run and its allocator agree on. -/
structure Contract (estimate : GlobalOptions → Option (UInt64 × UInt64))
    (pointers : AllocationPointers) (o : MainOptions) : Prop
    extends Checked estimate o.toGlobalOptions where
  sharedObjects : o.sharedObjects = 0 ∨ o.sharedObjects = 1
  baseline : o.doBaselineRss = if pointers = .nulloc then 1 else 0
  compact : o.useCompactAllocation = 0 ∨ o.useCompactAllocation = 1 ∧ pointers = .malloc

variable {estimate : GlobalOptions → Option (UInt64 × UInt64)} {pointers : AllocationPointers}
  {g q : GlobalOptions}

/-- The check of the sizes changes nothing else, and gives sizes or estimates. -/
theorem checkSizes_cases (h : checkSizes estimate g = some q) :
    ∃ c n m, q = { g with classBufferSize := c, nodeBufferSize := n, metadataHeapSz := m } ∧
      ((m ≠ 0 ∧ n ≠ 0 ∧ c ≠ 0) ∨ estimate g = some (c, n)) := by
  unfold checkSizes at h
  split at h
  · split at h
    · cases h
    · obtain ⟨⟨c, n⟩, he, rfl⟩ := Option.map_eq_some_iff.mp h
      exact ⟨c, n, _, rfl, .inr he⟩
  · next hne =>
    cases h
    push Not at hne
    exact ⟨_, _, _, rfl, .inl hne⟩

theorem overrideMode_cases (g : GlobalOptions) :
    g.mode = .acdc ∧ overrideMode g = g ∨ g.mode = .falseSharing ∧ overrideMode g =
      { g with
        receivingThreadsRatio := 100
        sharedObjects := 1
        sharedObjectsRatio := 100
        accessLiveObjects := 0
        writeAccessRatio := 100 } := by
  unfold overrideMode
  cases g.mode with
  | acdc => exact .inl ⟨rfl, rfl⟩
  | falseSharing => exact .inr ⟨rfl, rfl⟩

theorem defaultTimeGap_cases (g : GlobalOptions) :
    ∃ t, defaultTimeGap g = { g with maxTimeGap := t } ∧ (t < 0 → t = g.maxLiveness) := by
  unfold defaultTimeGap
  split
  · exact ⟨g.maxLiveness, rfl, fun _ ↦ rfl⟩
  · next h => exact ⟨g.maxTimeGap, rfl, fun ht ↦ absurd ht h⟩

theorem toInt_hundred_sub {x : Int32} (h0 : 0 ≤ x.toInt) (h100 : x.toInt ≤ 100) :
    (100 - x).toInt = 100 - x.toInt := by
  have h : (100 - x : Int32) = Int32.ofInt (100 - x.toInt) := by
    rw [Int32.ofInt_sub, Int32.ofInt_toInt]
    rfl
  rw [h]
  exact Int32.toInt_ofInt_of_le (by omega) (by omega)

/-- The check keeps the fields that it does not look at. -/
theorem checked_of_checkParams (h : checkParams estimate g = some q) :
    Checked estimate q ∧ (q.sharedObjects = g.sharedObjects ∨ q.sharedObjects = 1) ∧
      q.doBaselineRss = g.doBaselineRss ∧ q.useCompactAllocation = g.useCompactAllocation := by
  unfold checkParams at h
  split at h
  · cases h
  next hratio =>
  obtain ⟨h0, h100⟩ := not_or.mp hratio
  rw [Int32.not_lt, Int32.le_iff_toInt_le] at h0 h100
  obtain ⟨c, n, m, rfl, hsizes⟩ := checkSizes_cases h
  obtain ⟨t, ht, hneg⟩ :=
    defaultTimeGap_cases (overrideMode { g with btreeBasedRatio := 100 - g.listBasedRatio })
  have hsum := toInt_hundred_sub h0 h100
  have hratio : 0 ≤ g.listBasedRatio.toInt ∧ 0 ≤ (100 - g.listBasedRatio).toInt ∧
      g.listBasedRatio.toInt + (100 - g.listBasedRatio).toInt = 100 := by
    rw [hsum]
    exact ⟨h0, Int.sub_nonneg_of_le h100, by omega⟩
  have hest := hsizes.imp_right fun he ↦ (⟨_, he⟩ : ∃ q, estimate q = some (c, n))
  rw [ht]
  obtain ⟨hm, he⟩ | ⟨-, he⟩ :=
    overrideMode_cases { g with btreeBasedRatio := 100 - g.listBasedRatio }
  · rw [he] at hneg ⊢
    refine ⟨⟨hratio, hneg, fun h ↦ ?_, hest⟩, .inl rfl, rfl, rfl⟩
    exact nomatch hm.symm.trans h
  · rw [he] at hneg ⊢
    exact ⟨⟨hratio, hneg, fun _ ↦ ⟨rfl, rfl, rfl, rfl, rfl⟩, hest⟩, .inr rfl, rfl, rfl⟩

/-- No name chooses both `nulloc` and the compact collections. -/
theorem not_isPrefixOf_both {s : List UInt8}
    (hn : (ascii ['n', 'u', 'l', 'l', 'o', 'c']).isPrefixOf s = true) :
    (ascii ['c', 'o', 'm', 'p', 'a', 'c', 't']).isPrefixOf s = false := by
  obtain ⟨s, rfl⟩ := List.isPrefixOf_iff_prefix.mp hn
  rfl

/-- What becomes of options that the loop has set. -/
theorem main_of_commandLine {permute : Bool} {args : List (List UInt8)}
    (h : commandLine permute args = .ok o) : main estimate permute args =
      match checkParams estimate o.toGlobalOptions with
      | none => .error .parameterError
      | some p => .ok (setAllocationPointers { o with toGlobalOptions := p }) := by
  rw [main, h]
  rfl

/-- Every run starts with options that agree with each other and with the allocator. -/
theorem main_contract {permute : Bool} {args : List (List UInt8)}
    (h : main estimate permute args = .ok (pointers, o)) : Contract estimate pointers o := by
  cases hc : commandLine permute args with
  | error e =>
    rw [main, hc] at h
    cases h
  | ok p =>
    obtain ⟨ha, rfl⟩ := foldlM_setOption.mp hc
    have hp := settable_settings ha
    generalize settings .setDefaultParams (options (arity optString) permute args) = p at hp hc
    rw [main_of_commandLine hc] at h
    split at h
    · cases h
    next q hq =>
    obtain ⟨hch, hs, hb, hu⟩ := checked_of_checkParams hq
    cases h
    refine ⟨⟨hch.ratio, hch.maxTimeGap, hch.falseSharing, hch.sizes⟩,
      hs.elim (fun hs ↦ ?_) .inr, ?_, ?_⟩
    · exact hs ▸ hp.sharedObjects
    · dsimp only
      rw [hb, hp.doBaselineRss]
      split <;> rfl
    · dsimp only
      rw [hu, hp.useCompactAllocation]
      split
      · next hc =>
        refine .inr ⟨rfl, if_neg fun hn ↦ ?_⟩
        rw [not_isPrefixOf_both hn] at hc
        cases hc
      · exact .inl rfl

/-- A run with `nulloc`, whose sizes are estimated. -/
theorem main_contract_nulloc : ∃ o,
    main (fun _ ↦ some (8, 8)) true [ascii ['-', 'P'], ascii ['n', 'u', 'l', 'l', 'o', 'c']] =
      .ok (.nulloc, o) ∧ Contract (fun _ ↦ some (8, 8)) .nulloc o := by
  have h : main (fun _ ↦ some (8, 8)) true
      [ascii ['-', 'P'], ascii ['n', 'u', 'l', 'l', 'o', 'c']] = .ok (.nulloc,
        { MainOptions.setDefaultParams with
          btreeBasedRatio := 0
          maxTimeGap := 10
          classBufferSize := 8
          nodeBufferSize := 8
          metadataHeapSz := 1
          doBaselineRss := 1
          allocatorName := ascii ['n', 'u', 'l', 'l', 'o', 'c'] }) := by
    rfl
  exact ⟨_, h, main_contract h⟩

end Acdc
