import Acdc.Threads

/-!
# Percentages at their ends

The sharing decision and the draw of a type, `src/distribution.c:35–40,67–78`, compare a draw with
a percentage. The draw is one of the 101 values from 0 to 100, and the last one is below no
percentage. The options are considered at their ends, in the runs of all threads.
-/

namespace Acdc

variable {σ : Type}

/-- The value that a percentage is compared with. -/
def percentage (R : Generator σ) (s : σ) : Int := (R.rand (R.next s)).toInt % 101

namespace LifetimeSizeClassType

/-- List-based collections. -/
def isList : LifetimeSizeClassType → Bool
  | .list | .optimalList => true
  | _ => false

/-- Tree-based collections. -/
def isTree : LifetimeSizeClassType → Bool
  | .btree | .optimalBtree => true
  | _ => false

end LifetimeSizeClassType

/-- An event is one that the options at their ends allow: the sharing branch or the other one, and
collections of the one type or of the other. -/
def Event.Honours (g : GOptions) : Event → Prop
  | .inserted .. => ¬ (g.sharedObjects ≠ 0 ∧ g.sharedObjectsRatio = 100)
  | .selected .. => g.sharedObjectsRatio ≠ 0
  | .allocated _ _ d =>
    (g.listBasedRatio = 100 ∧ g.btreeBasedRatio = 0 → d.type.isList = true) ∧
      (g.listBasedRatio = 0 ∧ g.btreeBasedRatio = 100 → d.type.isTree = true)
  | _ => True

instance (g : GOptions) : DecidablePred (Event.Honours g)
  | .inserted .. => inferInstanceAs (Decidable (¬ _))
  | .selected .. => inferInstanceAs (Decidable (_ ≠ _))
  | .allocated .. => inferInstanceAs (Decidable (_ ∧ _))
  | .shared .. | .traversed .. | .accessed .. | .unreferenced .. | .deallocated .. =>
    .isTrue trivial

/-- Everything in the run so far honours the options. -/
def Honoured (g : GOptions) (s : Sys σ) : Prop := ∀ e ∈ s.log, e.Honours g

instance (g : GOptions) (s : Sys σ) : Decidable (Honoured g s) :=
  inferInstanceAs (Decidable (∀ e ∈ s.log, e.Honours g))

/-- The step of a thread is a decision at 100 per cent, and the value that the generator gives to
it is 100. -/
structure MissesShare (g : GOptions) (R : Generator σ) (i : Nat) (s : Sys σ) : Prop where
  sharedObjects : g.sharedObjects ≠ 0
  ratio : g.sharedObjectsRatio = 100
  pc : ∃ c, (s.threads i).pc = .placing c
  draw : percentage R (s.threads i).mc.rand = 100

/-- The type of a collection is the fourth draw of a turn. -/
structure MissesTree (g : GOptions) (R : Generator σ) (i : Nat) (s : Sys σ) : Prop where
  list : g.listBasedRatio = 0
  btree : g.btreeBasedRatio = 100
  pc : (s.threads i).pc = .looping
  draw : percentage R (R.next^[3] (s.threads i).mc.rand) = 100

variable {g : GOptions} {R : Generator σ} {i : Nat} {s s' : Sys σ} {rand rand' : σ}

/-! ### Draws -/

theorem percentage_bounds (R : Generator σ) (rand : σ) :
    0 ≤ percentage R rand ∧ percentage R rand ≤ 100 := by
  have h := Int.emod_lt_of_pos (R.rand (R.next rand)).toInt (show 0 < (101 : Int) by decide)
  exact ⟨Int.emod_nonneg _ (by decide), Int.lt_add_one_iff.mp h⟩

private theorem getRandIntRange_hundred (R : Generator σ) (rand : σ) :
    ∃ r, getRandIntRange R rand 0 100 = .ok (r, R.next rand) ∧ r.toInt = percentage R rand := by
  obtain ⟨r, hr, hv⟩ := getRandIntRange_eq_ok R rand
    (show (0 : Int32).toInt ≤ (100 : Int32).toInt by decide) (by decide)
  refine ⟨r, hr, hv.trans ?_⟩
  have h0 : (0 : Int32).toInt = 0 := rfl
  have h100 : (100 : Int32).toInt = 100 := rfl
  rw [h0, h100, Int.zero_add]
  rfl

/-- The sharing decision. -/
theorem getSharingDist_eq (hs : g.sharedObjects ≠ 0) (rand : σ) :
    getSharingDist g R rand =
      .ok (decide (percentage R rand < g.sharedObjectsRatio.toInt), R.next rand) := by
  obtain ⟨r, hr, hv⟩ := getRandIntRange_hundred R rand
  rw [getSharingDist, if_neg hs, hr, ← hv]
  simp only [bind, Except.bind, pure, Except.pure, Int32.lt_iff_toInt_lt]

/-- With 100 per cent a collection is not shared exactly if the draw is 100. -/
theorem eq_hundred_of_getSharingDist {b : Bool} (hs : g.sharedObjects ≠ 0)
    (h100 : g.sharedObjectsRatio = 100) (h : getSharingDist g R rand = .ok (b, rand')) :
    b = false ↔ percentage R rand = 100 := by
  have hv : (100 : Int32).toInt = 100 := rfl
  have hb := (percentage_bounds R rand).2
  rw [getSharingDist_eq hs, h100, hv] at h
  cases h
  rw [decide_eq_false_iff_not]
  omega

/-- With 0 per cent no collection is shared. -/
theorem eq_false_of_getSharingDist {b : Bool} (h0 : g.sharedObjectsRatio = 0)
    (h : getSharingDist g R rand = .ok (b, rand')) : b = false := by
  by_cases hs : g.sharedObjects = 0
  · rw [getSharingDist, if_pos hs] at h
    cases h
    rfl
  · have hv : (0 : Int32).toInt = 0 := rfl
    have hb := (percentage_bounds R rand).1
    rw [getSharingDist_eq hs, h0, hv] at h
    cases h
    rw [decide_eq_false_iff_not]
    omega

/-- With 100 per cent of lists every type is a list, also that of the draw 100. -/
theorem eq_list_of_type {type : LifetimeSizeClassType} (hl : g.listBasedRatio = 100)
    (hb : g.btreeBasedRatio = 0)
    (h : getRandomLifetimeSizeClassType g R rand = .ok (type, rand')) : type = .list := by
  obtain ⟨r, hr, -⟩ := getRandIntRange_hundred R rand
  rw [getRandomLifetimeSizeClassType, hr] at h
  simp only [bind, Except.bind, pure, Except.pure, hl, hb] at h
  split at h
  · cases h
    rfl
  · next hlt =>
    rw [Int32.add_zero, if_neg hlt] at h
    cases h
    rfl

/-- With 100 per cent of trees the default of the draw 100 is still a list. -/
theorem type_eq_of_trees {type : LifetimeSizeClassType} (hl : g.listBasedRatio = 0)
    (hb : g.btreeBasedRatio = 100)
    (h : getRandomLifetimeSizeClassType g R rand = .ok (type, rand')) :
    type = if percentage R rand = 100 then .list else .btree := by
  obtain ⟨r, hr, hv⟩ := getRandIntRange_hundred R rand
  obtain ⟨h0, h100⟩ := percentage_bounds R rand
  have hnat : r.toUInt32.toNat = r.toInt.toNat := toNat_toUInt32 (by omega)
  have hz : ((0 : Int32).toUInt32).toNat = 0 := rfl
  have hh : ((0 + 100 : Int32).toUInt32).toNat = 100 := rfl
  rw [getRandomLifetimeSizeClassType, hr] at h
  simp only [bind, Except.bind, pure, Except.pure, hl, hb, UInt32.lt_iff_toNat_lt, hz, hh,
    Nat.not_lt_zero, if_false] at h
  rw [← hv]
  split at h
  · cases h
    rw [if_neg (by omega)]
  · cases h
    rw [if_pos (by omega)]

theorem next_of_getRandIntRange {lo hi r : Int32}
    (h : getRandIntRange R rand lo hi = .ok (r, rand')) : rand' = R.next rand := by
  rw [getRandIntRange] at h
  split at h
  · cases h
  · cases h
    rfl

/-- The type of a collection comes from the fourth draw. -/
theorem type_of_getRandomObjectProps {p : ObjectProps}
    (h : getRandomObjectProps g R rand = .ok (p, rand')) :
    getRandomLifetimeSizeClassType g R (R.next^[3] rand) = .ok (p.type, rand') := by
  obtain ⟨⟨lt, r₁⟩, hlt, h⟩ := bind_eq_ok h
  obtain ⟨⟨sz, r₃⟩, hsz, h⟩ := bind_eq_ok h
  obtain ⟨-, -, h⟩ := bind_eq_ok h
  obtain ⟨-, -, h⟩ := bind_eq_ok h
  obtain ⟨⟨type, r₄⟩, htype, h⟩ := bind_eq_ok h
  cases h
  obtain ⟨⟨lt', r₁'⟩, hlt, h⟩ := bind_eq_ok hlt
  obtain rfl := next_of_getRandIntRange hlt
  cases h
  obtain ⟨⟨sc, r₂⟩, hsc, h⟩ := bind_eq_ok hsz
  obtain rfl := next_of_getRandIntRange hsc
  obtain ⟨-, -, h⟩ := bind_eq_ok h
  obtain ⟨-, -, h⟩ := bind_eq_ok h
  obtain ⟨⟨sz', r₃'⟩, hsz, h⟩ := bind_eq_ok h
  obtain rfl := next_of_getRandIntRange hsz
  obtain ⟨-, -, h⟩ := bind_eq_ok h
  obtain ⟨-, -, h⟩ := bind_eq_ok h
  cases h
  exact htype

private theorem type_prepareProps (p : ObjectProps) :
    (prepareProps g p).type.isList = p.type.isList ∧
      (prepareProps g p).type.isTree = p.type.isTree := by
  unfold prepareProps
  extract_lets p₁ p₂
  have hp₁ : p₁.type = p.type := by
    dsimp only [p₁]
    split <;> rfl
  have hp₂ : p₂.type = p.type := by
    rw [← hp₁]
    dsimp only [p₂]
    split <;> rfl
  rw [← hp₂]
  split
  · exact ⟨rfl, rfl⟩
  · split
    · next h =>
      rw [h]
      exact ⟨rfl, rfl⟩
    · next h =>
      rw [h]
      exact ⟨rfl, rfl⟩
    · exact ⟨rfl, rfl⟩

/-! ### Steps -/

private theorem not_missesShare (h : ∀ c, (s.threads i).pc ≠ .placing c) :
    ¬ MissesShare g R i s := by
  intro hm
  obtain ⟨c, hc⟩ := hm.pc
  exact h c hc

private theorem not_missesTree (h : (s.threads i).pc ≠ .looping) : ¬ MissesTree g R i s :=
  fun hm ↦ h hm.pc

private theorem honoured_cons {e : Event} {log : List Event} (hl : s.log = log)
    (hl' : s'.log = e :: log) : Honoured g s' ↔ Honoured g s ∧ e.Honours g := by
  rw [Honoured, Honoured, hl, hl', List.forall_mem_cons, and_comm]

private theorem honours_allocated {p₀ : ObjectProps} {c : Slot} {n : Nat}
    (hp : getRandomObjectProps g R rand = .ok (p₀, rand')) :
    (Event.allocated i c (newDescriptor g i n (prepareProps g p₀))).Honours g ↔
      ¬ (g.listBasedRatio = 0 ∧ g.btreeBasedRatio = 100 ∧
        percentage R (R.next^[3] rand) = 100) := by
  obtain ⟨hlist, htree⟩ := type_prepareProps (g := g) p₀
  have htype := type_of_getRandomObjectProps hp
  constructor
  · intro ⟨_, hh⟩ ⟨hl, hb, hd⟩
    have hh : (prepareProps g p₀).type.isTree = true := hh ⟨hl, hb⟩
    rw [htree, type_eq_of_trees hl hb htype, if_pos hd] at hh
    cases hh
  · intro hno
    constructor
    · intro ⟨hl, hb⟩
      show (prepareProps g p₀).type.isList = true
      rw [hlist, eq_list_of_type hl hb htype]
      rfl
    · intro ⟨hl, hb⟩
      show (prepareProps g p₀).type.isTree = true
      rw [htree, type_eq_of_trees hl hb htype, if_neg fun hd ↦ hno ⟨hl, hb, hd⟩]
      rfl

/-- Only a draw of 100 breaks the options, and it always does. -/
theorem Move.honoured_iff (h : Move g R i s s') :
    Honoured g s' ↔ Honoured g s ∧ ¬ MissesShare g R i s ∧ ¬ MissesTree g R i s := by
  cases h with
  | create p₀ p rand c cache k hpc hr hp he =>
    subst he
    have hshare : ¬ MissesShare g R i s := not_missesShare fun _ ↦ hpc ▸ nofun
    have htree : MissesTree g R i s ↔ g.listBasedRatio = 0 ∧ g.btreeBasedRatio = 100 ∧
        percentage R (R.next^[3] (s.threads i).mc.rand) = 100 :=
      ⟨fun hm ↦ ⟨hm.list, hm.btree, hm.draw⟩, fun hm ↦ ⟨hm.1, hm.2.1, hpc, hm.2.2⟩⟩
    rw [honoured_cons rfl rfl, honours_allocated hp, htree]
    exact and_congr_right fun _ ↦ (and_iff_right hshare).symm
  | insert c node cache k rand hpc hs =>
    have htree : ¬ MissesTree g R i s := not_missesTree (hpc ▸ nofun)
    rw [honoured_cons rfl rfl]
    refine and_congr_right fun _ ↦ ?_
    rw [and_iff_left htree]
    refine not_congr ⟨fun ⟨hon, h100⟩ ↦ ?_, fun hm ↦ ⟨hm.sharedObjects, hm.ratio⟩⟩
    exact ⟨hon, h100, ⟨c, hpc⟩, (eq_hundred_of_getSharingDist hon h100 hs).mp rfl⟩
  | select c receivers rand rand' hpc hs =>
    have htree : ¬ MissesTree g R i s := not_missesTree (hpc ▸ nofun)
    have hshare : ¬ MissesShare g R i s := by
      intro hm
      have hfalse := (eq_hundred_of_getSharingDist hm.sharedObjects hm.ratio hs).mpr hm.draw
      cases hfalse
    have hratio : g.sharedObjectsRatio ≠ 0 := by
      intro h0
      have hfalse := eq_false_of_getSharingDist h0 hs
      cases hfalse
    rw [honoured_cons rfl rfl]
    exact and_congr_right fun _ ↦ iff_of_true hratio ⟨hshare, htree⟩
  | _ =>
    have hshare : ¬ MissesShare g R i s := not_missesShare (by simp_all)
    have htree : ¬ MissesTree g R i s := not_missesTree (by simp_all)
    simp [Honoured, Event.Honours, hshare, htree]

/-! ### Runs -/

private theorem honoured_run_iff {is : List Nat} (h : runSchedule g R is s = .ok s') :
    Honoured g s' ↔ Honoured g s ∧ ∀ is₁ i is₂ t, is = is₁ ++ i :: is₂ →
      runSchedule g R is₁ s = .ok t → ¬ MissesShare g R i t ∧ ¬ MissesTree g R i t := by
  induction is generalizing s with
  | nil =>
    cases h
    refine (and_iff_left fun is₁ i is₂ t he ↦ ?_).symm
    simp at he
  | cons j is ih =>
    obtain ⟨hj, t, ht, h⟩ := runSchedule_cons g R h
    have hcons (is₁ : List Nat) : runSchedule g R (j :: is₁) s = runSchedule g R is₁ t := by
      simp only [runSchedule, if_pos hj, ht]
    rw [ih h, (step_move ht).honoured_iff]
    constructor
    · intro h
      apply And.intro h.1.1
      intro is₁ i is₂ t' he hr
      cases is₁ with
      | nil =>
        cases he
        cases hr
        exact h.1.2
      | cons k is₁ =>
        obtain ⟨rfl, htail⟩ := List.cons.inj he
        exact h.2 is₁ i is₂ t' htail (hcons is₁ ▸ hr)
    · intro h
      apply And.intro ⟨h.1, h.2 [] j is s rfl rfl⟩
      intro is₁ i is₂ t' he hr
      exact h.2 (j :: is₁) i is₂ t' (congrArg _ he) ((hcons is₁).trans hr)

/-- A run honours percentages of 0 and 100 exactly if none of its decisions falls on 100: no
sharing decision at 100 per cent, and no choice of a type at 100 per cent of trees. -/
theorem honoured_iff_not_misses {is : List Nat} (h : runSchedule g R is (runAcdc g R) = .ok s') :
    Honoured g s' ↔ ∀ is₁ i is₂ t, is = is₁ ++ i :: is₂ →
      runSchedule g R is₁ (runAcdc g R) = .ok t →
        ¬ MissesShare g R i t ∧ ¬ MissesTree g R i t :=
  (honoured_run_iff h).trans (and_iff_right nofun)

/-- Options of one thread that shares all collections and builds trees only. -/
def fullOptions (seed : Int32) : GOptions :=
  { smallOptions 1 1 0 with
    seed := seed
    listBasedRatio := 0
    btreeBasedRatio := 100
    sharedObjects := 1
    sharedObjectsRatio := 100 }

/-- A turn without a draw of 100. -/
theorem honoured_iff_not_misses_turn :
    ∃ s, runSchedule (fullOptions 1) (schrage (fullOptions 1)) [0, 0, 0, 0]
        (runAcdc (fullOptions 1) (schrage (fullOptions 1))) = .ok s ∧
      ∀ is₁ i is₂ t, [0, 0, 0, 0] = is₁ ++ i :: is₂ →
        runSchedule (fullOptions 1) (schrage (fullOptions 1)) is₁
            (runAcdc (fullOptions 1) (schrage (fullOptions 1))) = .ok t →
          ¬ MissesShare (fullOptions 1) (schrage (fullOptions 1)) i t ∧
            ¬ MissesTree (fullOptions 1) (schrage (fullOptions 1)) i t := by
  obtain ⟨s, hs, hh⟩ := exists_run_of_endsIn (fullOptions 1) (schrage (fullOptions 1))
    [0, 0, 0, 0] (Honoured (fullOptions 1)) (by decide +kernel)
  exact ⟨s, hs, (honoured_iff_not_misses hs).mp hh⟩

/-- The seed 120 takes a collection past the sharing branch at 100 per cent, and the seed 66 builds
a list at 100 per cent of trees. -/
theorem not_forall_honoured :
    (¬ ∀ (g : GOptions) (s : Sys Int32), g.sharedObjects ≠ 0 → g.sharedObjectsRatio = 100 →
      Reachable g (schrage g) s → ∀ i c b t l, .inserted i c b t l ∉ s.log) ∧
    ¬ ∀ (g : GOptions) (s : Sys Int32), g.listBasedRatio = 0 → g.btreeBasedRatio = 100 →
      Reachable g (schrage g) s → ∀ i c d, .allocated i c d ∈ s.log → d.type.isTree = true := by
  constructor
  · intro h
    obtain ⟨s, hs, hm⟩ := exists_of_endsIn (fullOptions 120) (schrage (fullOptions 120))
      [0, 0, 0, 0] (fun s ↦ .inserted 0 ⟨0, 0⟩ ⟨0, 0⟩ 0 1 ∈ s.log) (by decide +kernel) (by decide)
    exact h _ s (by decide) rfl hs _ _ _ _ _ hm
  · intro h
    obtain ⟨s, hs, hm⟩ := exists_of_endsIn (fullOptions 66) (schrage (fullOptions 66)) [0, 0, 0]
      (fun s ↦ .allocated 0 ⟨0, 0⟩ ⟨0, 16, 1, 1, .list, ⟨0, 0⟩⟩ ∈ s.log) (by decide +kernel)
      (by decide)
    have htree := h _ s rfl rfl hs _ _ _ hm
    cases htree

end Acdc
