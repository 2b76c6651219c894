import Mathlib.Data.List.Basic

/-!
# Options of a command line

What the calls of `getopt` return for the words of a command line, up to the one that finds no
more options. A word of options is a `-` and a cluster of letters. The argument of an option is
the rest of its word or the next word. The word `--` ends the options. With `permute` the other
words, the operands, may stand between the options; else the first of them ends the options.
-/

namespace Getopt

/-- What an option string says of a letter. -/
inductive Arity where
  | unknown
  | flag
  | argument
  deriving DecidableEq, Repr

/-- A letter of the option string takes an argument if a colon follows. -/
def arity (optString : List Char) (c : Char) : Arity :=
  if c = ':' then .unknown
  else
    match optString.dropWhile (· ≠ c) with
    | [] => .unknown
    | [_] => .flag
    | _ :: next :: _ => if next = ':' then .argument else .flag

/-- What a call returns: a letter, with the argument of an option that takes one. A letter is
invalid if it is unknown or lacks its argument. -/
inductive Opt where
  | flag (c : Char)
  | argument (c : Char) (optarg : List UInt8)
  | invalid (c : Char)
  deriving DecidableEq, Repr

section Options

variable (a : Char → Arity) (permute : Bool)

/-- The options of a cluster, and the last of them where its argument is the next word. -/
def cluster : List UInt8 → List Opt × Option Char
  | [] => ([], none)
  | c :: s =>
    let opt := Char.ofUInt8 c
    match a opt with
    | .unknown => (.invalid opt :: (cluster s).1, (cluster s).2)
    | .flag => (.flag opt :: (cluster s).1, (cluster s).2)
    | .argument => if s = [] then ([], some opt) else ([.argument opt s], none)

/-- The cluster of a word of options. -/
def letters : List UInt8 → Option (List UInt8)
  | 45 :: c :: s => some (c :: s)
  | _ => none

/-- What the calls return. -/
def options : List (List UInt8) → List Opt
  | [] => []
  | word :: words =>
    if word = [45, 45] then []
    else
      match letters word with
      | none => if permute then options words else []
      | some s =>
        match (cluster a s).2, words with
        | none, words => (cluster a s).1 ++ options words
        | some c, [] => (cluster a s).1 ++ [.invalid c]
        | some c, optarg :: words => (cluster a s).1 ++ .argument c optarg :: options words

end Options

/-! ### Command lines by their parts -/

/-- A part of a command line: an operand or a cluster, which may end in an option with its
argument, in the same word or in the next one. -/
inductive Item where
  | operand (word : List UInt8)
  | flags (cs : List UInt8)
  | attached (cs : List UInt8) (c : UInt8) (optarg : List UInt8)
  | separate (cs : List UInt8) (c : UInt8) (optarg : List UInt8)
  deriving DecidableEq, Repr

namespace Item

/-- The words of a part. -/
def words : Item → List (List UInt8)
  | operand word => [word]
  | flags cs => [45 :: cs]
  | attached cs c optarg => [45 :: (cs ++ c :: optarg)]
  | separate cs c optarg => [45 :: (cs ++ [c]), optarg]

variable (a : Char → Arity)

/-- A letter that takes no argument. -/
def flagOpt (c : UInt8) : Opt :=
  if a (Char.ofUInt8 c) = .unknown then .invalid (Char.ofUInt8 c) else .flag (Char.ofUInt8 c)

/-- The options of a part. -/
def opts : Item → List Opt
  | operand _ => []
  | flags cs => cs.map (flagOpt a)
  | attached cs c optarg | separate cs c optarg =>
    cs.map (flagOpt a) ++ [.argument (Char.ofUInt8 c) optarg]

/-- No letter takes an argument. -/
def Flags (cs : List UInt8) : Prop := ∀ c ∈ cs, a (Char.ofUInt8 c) ≠ .argument

/-- The part can stand on a command line: its words are read as they are meant. -/
def Valid (permute : Bool) : Item → Prop
  | operand word => permute = true ∧ letters word = none
  | flags cs => cs ≠ [] ∧ cs ≠ [45] ∧ Flags a cs
  | attached cs c optarg => Flags a cs ∧ a (Char.ofUInt8 c) = .argument ∧ optarg ≠ []
  | separate cs c _ => Flags a cs ∧ a (Char.ofUInt8 c) = .argument ∧ (cs = [] → c ≠ 45)

end Item

/-- What is left of a command line where the options end: nothing, a word that ends them, or an
option without its argument. -/
inductive End (a : Char → Arity) (permute : Bool) : List (List UInt8) → List Opt → Prop where
  | nil : End a permute [] []
  | dashes (words : List (List UInt8)) : End a permute ([45, 45] :: words) []
  | operand (word : List UInt8) (words : List (List UInt8)) (hp : permute = false)
      (hw : letters word = none) : End a permute (word :: words) []
  | missing (cs : List UInt8) (c : UInt8) (hcs : Item.Flags a cs)
      (hc : a (Char.ofUInt8 c) = .argument) (hne : cs = [] → c ≠ 45) :
      End a permute [45 :: (cs ++ [c])]
        (cs.map (Item.flagOpt a) ++ [.invalid (Char.ofUInt8 c)])

variable {a : Char → Arity} {permute : Bool} {cs s optarg word : List UInt8} {c : UInt8}
  {rest words : List (List UInt8)} {items : List Item} {ends : List Opt}

/-! ### Clusters -/

theorem letters_of_ne_nil (hs : s ≠ []) : letters (45 :: s) = some s := by
  cases s with
  | nil => exact absurd rfl hs
  | cons c s => rfl

theorem eq_of_letters (h : letters word = some s) : word = 45 :: s ∧ s ≠ [] := by
  unfold letters at h
  split at h
  · cases h
    exact ⟨rfl, List.cons_ne_nil _ _⟩
  · cases h

/-- The letters of a cluster are read one after the other, up to one that takes an argument. -/
theorem cluster_append (hcs : Item.Flags a cs) (s : List UInt8) :
    cluster a (cs ++ s) = (cs.map (Item.flagOpt a) ++ (cluster a s).1, (cluster a s).2) := by
  induction cs with
  | nil => rfl
  | cons c cs ih =>
    have hc := hcs c List.mem_cons_self
    specialize ih fun c hc ↦ hcs c (List.mem_cons_of_mem _ hc)
    rw [List.cons_append, cluster, ih, List.map_cons, Item.flagOpt]
    cases h : a (Char.ofUInt8 c) with
    | unknown => rfl
    | flag => rfl
    | argument => exact absurd h hc

theorem cluster_flags (hcs : Item.Flags a cs) :
    cluster a cs = (cs.map (Item.flagOpt a), none) := by
  have h := cluster_append hcs []
  rw [List.append_nil] at h
  rw [h]
  exact congrArg (·, none) (List.append_nil _)

/-- A letter with an argument takes the rest of the cluster, if there is any. -/
theorem cluster_argument (hc : a (Char.ofUInt8 c) = .argument) (s : List UInt8) :
    cluster a (c :: s) = if s = [] then ([], some (Char.ofUInt8 c))
      else ([.argument (Char.ofUInt8 c) s], none) := by
  rw [cluster]
  simp only [hc]

/-- A cluster consists of letters without argument, and perhaps one with its argument. -/
theorem exists_cluster (a : Char → Arity) (s : List UInt8) :
    Item.Flags a s ∨ ∃ cs c optarg, s = cs ++ c :: optarg ∧ Item.Flags a cs ∧
      a (Char.ofUInt8 c) = .argument := by
  induction s with
  | nil => exact .inl fun c hc ↦ absurd hc List.not_mem_nil
  | cons d s ih =>
    by_cases hd : a (Char.ofUInt8 d) = .argument
    · exact .inr ⟨[], d, s, rfl, fun c hc ↦ absurd hc List.not_mem_nil, hd⟩
    · obtain hs | ⟨cs, c, optarg, rfl, hcs, hc⟩ := ih
      · exact .inl (List.forall_mem_cons.mpr ⟨hd, hs⟩)
      · exact .inr ⟨d :: cs, c, optarg, rfl, List.forall_mem_cons.mpr ⟨hd, hcs⟩, hc⟩

/-! ### Words -/

theorem options_flags (hne : cs ≠ []) (hdash : cs ≠ [45]) (hcs : Item.Flags a cs) :
    options a permute ((45 :: cs) :: rest) =
      cs.map (Item.flagOpt a) ++ options a permute rest := by
  rw [options, if_neg fun h ↦ hdash (List.cons.inj h).2, letters_of_ne_nil hne]
  simp only [cluster_flags hcs]

theorem options_attached (hcs : Item.Flags a cs) (hc : a (Char.ofUInt8 c) = .argument)
    (hne : optarg ≠ []) :
    options a permute ((45 :: (cs ++ c :: optarg)) :: rest) =
      cs.map (Item.flagOpt a) ++ .argument (Char.ofUInt8 c) optarg :: options a permute rest := by
  have hdash : 45 :: (cs ++ c :: optarg) ≠ [45, 45] := by
    intro h
    have hlen := congrArg List.length h
    have hpos := List.length_pos_of_ne_nil hne
    simp only [List.length_cons, List.length_append, List.length_nil] at hlen
    omega
  rw [options, if_neg hdash, letters_of_ne_nil (by simp)]
  simp only [cluster_append hcs, cluster_argument hc, if_neg hne]
  exact (List.append_assoc _ _ _)

/-- The word of an option that waits for its argument is not the one that ends the options. -/
theorem append_singleton_ne (hne : cs = [] → c ≠ 45) : 45 :: (cs ++ [c]) ≠ [45, 45] := by
  intro h
  cases cs with
  | nil => exact hne rfl (List.cons.inj (List.cons.inj h).2).1
  | cons d cs => simpa using congrArg List.length h

theorem options_separate (hcs : Item.Flags a cs) (hc : a (Char.ofUInt8 c) = .argument)
    (hne : cs = [] → c ≠ 45) :
    options a permute ((45 :: (cs ++ [c])) :: optarg :: rest) =
      cs.map (Item.flagOpt a) ++ .argument (Char.ofUInt8 c) optarg :: options a permute rest := by
  rw [options, if_neg (append_singleton_ne hne), letters_of_ne_nil (by simp)]
  simp only [cluster_append hcs, cluster_argument hc, if_true, List.append_nil]

theorem options_operand (hword : letters word = none) (hp : permute = true) :
    options a permute (word :: rest) = options a permute rest := by
  have hdash : word ≠ [45, 45] := by
    rintro rfl
    cases hword
  rw [options, if_neg hdash, hword]
  exact if_pos hp

/-! ### Command lines -/

/-- The options of a part come before those of the rest. -/
theorem options_item {item : Item} (h : item.Valid a permute) (rest : List (List UInt8)) :
    options a permute (item.words ++ rest) = item.opts a ++ options a permute rest := by
  cases item with
  | operand word => exact options_operand h.2 h.1
  | flags cs => exact options_flags h.1 h.2.1 h.2.2
  | attached cs c optarg =>
    rw [Item.opts, List.append_assoc]
    exact options_attached h.1 h.2.1 h.2.2
  | separate cs c optarg =>
    rw [Item.opts, List.append_assoc]
    exact options_separate h.1 h.2.1 h.2.2

/-- The options of parts are read in their order. -/
theorem options_items (h : ∀ item ∈ items, item.Valid a permute) (rest : List (List UInt8)) :
    options a permute (items.flatMap Item.words ++ rest) =
      items.flatMap (Item.opts a) ++ options a permute rest := by
  induction items with
  | nil => rfl
  | cons item items ih =>
    obtain ⟨hitem, hitems⟩ := List.forall_mem_cons.mp h
    rw [List.flatMap_cons, List.flatMap_cons, List.append_assoc, List.append_assoc,
      options_item hitem, ih hitems]

/-- The options end there. -/
theorem options_end (h : End a permute rest ends) : options a permute rest = ends := by
  cases h with
  | nil => rfl
  | dashes words => rw [options, if_pos rfl]
  | operand word words hp hw =>
    rw [options]
    split
    · rfl
    · simp only [hw, hp]
      rfl
  | missing cs c hcs hc hne =>
    rw [options, if_neg (append_singleton_ne hne), letters_of_ne_nil (by simp)]
    simp only [cluster_append hcs, cluster_argument hc, if_true, List.append_nil]

/-- The words are those of some parts and an end. -/
def HasParts (a : Char → Arity) (permute : Bool) (words : List (List UInt8)) : Prop :=
  ∃ (items : List Item) (rest : List (List UInt8)) (ends : List Opt),
    words = items.flatMap Item.words ++ rest ∧ (∀ item ∈ items, item.Valid a permute) ∧
      End a permute rest ends

theorem End.hasParts (h : End a permute rest ends) : HasParts a permute rest :=
  ⟨[], rest, ends, rfl, fun _ hi ↦ absurd hi List.not_mem_nil, h⟩

theorem HasParts.cons (i : Item) (hv : i.Valid a permute) (h : HasParts a permute rest) :
    HasParts a permute (i.words ++ rest) := by
  obtain ⟨items, rest, ends, rfl, hitems, hend⟩ := h
  refine ⟨i :: items, rest, ends, ?_, List.forall_mem_cons.mpr ⟨hv, hitems⟩, hend⟩
  rw [List.flatMap_cons, List.append_assoc]

/-- A part for one option. -/
def Opt.item : Opt → Item
  | .flag c | .invalid c => .flags [c.toUInt8]
  | .argument c optarg => .separate [] c.toUInt8 optarg

/-- The option has a letter of its own, which is a byte. -/
def Opt.Own (a : Char → Arity) : Opt → Prop
  | .flag c => Char.ofUInt8 c.toUInt8 = c ∧ c.toUInt8 ≠ 45 ∧ a c = .flag
  | .argument c _ => Char.ofUInt8 c.toUInt8 = c ∧ c.toUInt8 ≠ 45 ∧ a c = .argument
  | .invalid _ => False

theorem Opt.Own.valid {opt : Opt} (h : opt.Own a) (permute : Bool) : opt.item.Valid a permute := by
  cases opt with
  | flag c =>
    obtain ⟨hc, hdash, ha⟩ := h
    refine ⟨List.cons_ne_nil _ _, fun h ↦ hdash (List.cons.inj h).1, fun d hd ↦ ?_⟩
    rw [List.mem_singleton.mp hd, hc, ha]
    exact nofun
  | argument c optarg =>
    obtain ⟨hc, hdash, ha⟩ := h
    refine ⟨fun d hd ↦ absurd hd List.not_mem_nil, ?_, fun _ ↦ hdash⟩
    rw [hc, ha]
  | invalid c => exact h.elim

theorem Opt.Own.opts_item {opt : Opt} (h : opt.Own a) : opt.item.opts a = [opt] := by
  cases opt with
  | flag c =>
    simp only [Opt.item, Item.opts, List.map_cons, List.map_nil, Item.flagOpt, h.1, h.2.2]
    rfl
  | argument c optarg => simp only [Opt.item, Item.opts, List.map_nil, List.nil_append, h.1]
  | invalid c => exact h.elim

/-- Options with letters of their own are written one after the other. -/
theorem flatMap_item {opts : List Opt} (h : ∀ opt ∈ opts, opt.Own a) :
    (opts.map Opt.item).flatMap (Item.opts a) = opts := by
  induction opts with
  | nil => rfl
  | cons opt opts ih =>
    obtain ⟨hopt, hopts⟩ := List.forall_mem_cons.mp h
    rw [List.map_cons, List.flatMap_cons, hopt.opts_item, ih hopts]
    rfl

/-- Each command line consists of parts and an end. -/
theorem hasParts (a : Char → Arity) (permute : Bool) (words : List (List UInt8)) :
    HasParts a permute words := by
  induction hn : words.length using Nat.strongRecOn generalizing words with
  | ind n ih =>
    cases words with
    | nil => exact End.nil.hasParts
    | cons word words =>
      rw [List.length_cons] at hn
      have hrest := ih words.length (by omega) words rfl
      by_cases hdash : word = [45, 45]
      · subst hdash
        exact (End.dashes words).hasParts
      cases hw : letters word with
      | none =>
        by_cases hp : permute = true
        · exact HasParts.cons (.operand word) ⟨hp, hw⟩ hrest
        · exact (End.operand word words (Bool.eq_false_iff.mpr hp) hw).hasParts
      | some s =>
        obtain ⟨rfl, hs⟩ := eq_of_letters hw
        have hs' : s ≠ [45] := fun h ↦ hdash (h ▸ rfl)
        obtain hcs | ⟨cs, c, optarg, rfl, hcs, hc⟩ := exists_cluster a s
        · exact HasParts.cons (.flags s) ⟨hs, hs', hcs⟩ hrest
        cases optarg with
        | cons d optarg =>
          exact HasParts.cons (.attached cs c (d :: optarg)) ⟨hcs, hc, List.cons_ne_nil _ _⟩ hrest
        | nil =>
          -- the argument is the next word
          have hne : cs = [] → c ≠ 45 := by
            rintro rfl rfl
            exact hs' rfl
          cases words with
          | nil => exact (End.missing cs c hcs hc hne).hasParts
          | cons optarg words =>
            rw [List.length_cons] at hn
            have hrest := ih words.length (by omega) words rfl
            exact HasParts.cons (.separate cs c optarg) ⟨hcs, hc, hne⟩ hrest

/-! ### Arguments -/

section Arguments

variable {opt : Opt} {c d : Char} {optarg : List UInt8}

/-- The argument of an option with a letter. -/
def argumentOf (c : Char) : Opt → Option (List UInt8)
  | .argument d optarg => if d = c then some optarg else none
  | _ => none

@[simp] theorem argumentOf_flag : argumentOf c (.flag d) = none := rfl

@[simp] theorem argumentOf_argument :
    argumentOf c (.argument d optarg) = if d = c then some optarg else none :=
  rfl

theorem argumentOf_eq_none (h : ∀ optarg, opt ≠ .argument c optarg) : argumentOf c opt = none := by
  cases opt with
  | argument d optarg => exact if_neg fun hd ↦ h optarg (congrArg (Opt.argument · optarg) hd)
  | _ => rfl

/-- Among options with different letters one has the argument. -/
theorem filterMap_argumentOf_of_nodup {l : List (Char × List UInt8)} (hn : (l.map Prod.fst).Nodup)
    (h : (c, optarg) ∈ l) :
    (l.map fun p ↦ Opt.argument p.1 p.2).filterMap (argumentOf c) = [optarg] := by
  induction l with
  | nil => cases h
  | cons p l ih =>
    obtain ⟨hp, hl⟩ := List.nodup_cons.mp hn
    rw [List.map_cons, List.filterMap_cons, argumentOf_argument]
    obtain rfl | h := List.mem_cons.mp h
    · have hnil : (l.map fun p ↦ Opt.argument p.1 p.2).filterMap (argumentOf c) = [] := by
        rw [List.filterMap_map]
        apply List.filterMap_eq_nil_iff.mpr
        intro q hq
        have hmem : q.1 ∈ l.map Prod.fst := List.mem_map_of_mem hq
        exact if_neg fun hc : q.1 = c ↦ hp (hc ▸ hmem)
      rw [if_pos rfl, hnil]
    · have hc : p.1 ≠ c := fun hc ↦ hp (hc ▸ List.mem_map_of_mem h)
      rw [if_neg hc]
      exact ih hl h

end Arguments

end Getopt
