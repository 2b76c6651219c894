import Acdc.LinkedRuns

/-!
# Well-formed lifetime-classes

The previous link of the first node of a fetched lifetime-class is not set. Every list is well
formed in a run as long as each fetch goes to empty lifetime-classes, and not after another
one; walking forwards and the caches do not depend on it. The class caches are well formed as
long as no class slot is carved twice.
-/

namespace Acdc

open DList

variable {σ : Type} {p : Bool} {g : GOptions} {R : Generator σ} {i : Nat} {s s' : Sys σ}
  {L L' : Links}

/-! ### Previous links after a fetch -/

private theorem fetchLClass_prev {m m' : Store NodeList Slot} {time : UInt32} {k : Nat}
    (h : Links.fetchLClass g i time m k = .ok m') (a : Slot) :
    (m'.links a).prev = (m.links a).prev := by
  unfold Links.fetchLClass at h
  dsimp only at h
  split at h
  · cases h
    rfl
  · split at h
    · cases h
      rfl
    · split at h
      · cases h
      · next last _ =>
        cases h
        by_cases ha : a = last
        · subst ha
          simp
        · simp [Function.update_of_ne ha]

private theorem getSharedLClasses_prev {time : UInt32}
    (h : L.getSharedLClasses g i time = .ok L') (a : Slot) :
    (L'.nodes.links a).prev = (L.nodes.links a).prev := by
  obtain ⟨m, hm, h⟩ := bind_eq_ok h
  cases h
  show (m.links a).prev = _
  generalize List.range g.life = ks at hm
  generalize L.nodes = m₀ at hm
  induction ks generalizing m₀ with
  | nil =>
    cases hm
    rfl
  | cons k ks ih =>
    obtain ⟨m₁, hm₁, hm⟩ := bind_eq_ok hm
    rw [ih m₁ hm, fetchLClass_prev hm₁]

private theorem ChainedNodes.exists_first (hC : ChainedNodes p g s L.nodes) {k : NodeList}
    (hk : level p g s k = .both) (hne : contents g s k ≠ []) :
    ∃ a ∈ contents g s k, (L.nodes.links a).prev = none := by
  obtain ⟨a, l, hl⟩ := List.exists_cons_of_ne_nil hne
  have hat := hC.holds.at_list k
  rw [hk, hl, ← List.nil_append (a :: l)] at hat
  refine ⟨a, hl ▸ List.mem_cons_self, ?_⟩
  rw [Store.WellFormed.neighbours hat]
  rfl

private theorem WellLinked.eq_of_prev (hwell : WellLinked s L)
    (hC : ChainedNodes p g s L.nodes) (hr : (s.threads i).pc.inRemoval = false) {k : Nat}
    {a b : Slot} (ha : a ∈ contents g s (.heapClass i k))
    (hb : b ∈ contents g s (.heapClass i k)) (hpa : (L.nodes.links a).prev = none)
    (hpb : (L.nodes.links b).prev = none) : a = b := by
  obtain ⟨l, hl⟩ := hwell.heapClass i k hr
  have hforward := (hC.holds.at_list (.heapClass i k)).forward (level_heapClass_cases hr k)
  obtain rfl := hl.next.unique hforward.next
  exact hl.eq_of_prev ha hb hpa hpb

section Fetch

variable {c : Slot} (hInv : Inv g s) (hpc : (s.threads i).pc = .sharing c [])
  (h : step g R i s = .ok s')
include hInv hpc h

private theorem contents_after_fetch {j : Nat} (hj : j < g.wheelSize) :
    (s'.threads i).pc.inRemoval = false ∧
      contents g s' (.heapClass i j) = contents g s (.heapClass i j) ++
        slots ((List.range g.life).flatMap fun k ↦
          if heapClassGetIndex g (s.threads i).mc.time (UInt32.ofNat k) = j then
            (s.pools i).getD k [] else []) := by
  have hr : (s.threads i).pc.inRemoval = false := by rw [hpc]; rfl
  have hs' : s' = (s.putPool i (getSharedLClasses g (s.threads i).mc.time
      (s.threads i).mc.heapClass (s.pools i)).2).put i
        { s.threads i with
          mc := { (s.threads i).mc with
            heapClass := (getSharedLClasses g (s.threads i).mc.time
              (s.threads i).mc.heapClass (s.pools i)).1 }
          pc := enterAccess g } := by
    unfold step at h
    rw [hpc] at h
    exact (Except.ok.inj h).symm
  have hlen : j < (s.threads i).mc.heapClass.length := (hInv.wheel i).symm ▸ hj
  constructor
  · simp [hs', inRemoval_enterAccess]
  · simp [contents, slots, hr, hs', inRemoval_enterAccess, hlen,
      getSharedLClasses_fst g _ (hInv.pool i)]

private theorem mem_after_fetch (hw : g.HasWheel) {k : Nat} (hk : k ∈ List.range g.life)
    {a : Slot} (ha : a ∈ contents g s (.shared i k) ∨ a ∈ contents g s
      (.heapClass i (heapClassGetIndex g (s.threads i).mc.time (UInt32.ofNat k)))) :
    a ∈ contents g s'
      (.heapClass i (heapClassGetIndex g (s.threads i).mc.time (UInt32.ofNat k))) := by
  rw [(contents_after_fetch hInv hpc h (getIndex_lt hw _ hk)).2, List.mem_append]
  obtain ha | ha := ha
  · obtain ⟨node, hnode, rfl⟩ := List.mem_map.mp ha
    refine .inr (List.mem_map_of_mem (List.mem_flatMap.mpr ⟨k, hk, ?_⟩))
    rwa [if_pos rfl]
  · exact .inl ha

end Fetch

private theorem ChainedNodes.fetchesApart (hw : g.HasWheel) (hInv : Inv g s)
    (hC : ChainedNodes true g s L.nodes) (hC' : ChainedNodes false g s' L'.nodes)
    (h : Acdc.step g R i s = .ok s') (hL : linkStep g R i s L = .ok L')
    (hwell : WellLinked s' L') : FetchesApart g i s := by
  intro hfetches k hk hne
  obtain ⟨c, hpc⟩ := Pc.fetches_iff.mp hfetches
  have hr : (s.threads i).pc.inRemoval = false := by rw [hpc]; rfl
  have hr' := (contents_after_fetch hInv hpc h (getIndex_lt hw (s.threads i).mc.time hk)).1
  have hmem {a : Slot} := mem_after_fetch (a := a) hInv hpc h hw hk
  have hfetch : L.getSharedLClasses g i (s.threads i).mc.time = .ok L' := by
    simpa only [linkStep, hpc] using hL
  have hprev := getSharedLClasses_prev hfetch
  obtain ⟨a, ha, hpa⟩ := hC.exists_first (k := .shared i k) rfl (mt List.map_eq_nil_iff.mp hne)
  -- A list with nodes that go to the same lifetime-class has the same first node.
  have hsame {x : NodeList} (hx : level true g s x = .both) (hne : contents g s x ≠ [])
      (hto : ∀ b ∈ contents g s x, b ∈ contents g s'
        (.heapClass i (heapClassGetIndex g (s.threads i).mc.time (UInt32.ofNat k)))) :
      x = .shared i k := by
    obtain ⟨b, hb, hpb⟩ := hC.exists_first hx hne
    rw [← hprev] at hpa hpb
    obtain rfl := hwell.eq_of_prev hC' hr' (hmem (.inl ha)) (hto b hb) hpa hpb
    exact hC.holds.separate.disjoint _ _ _ hb ha
  constructor
  · by_contra hlocal
    have hcontents : contents g s
        (.heapClass i (heapClassGetIndex g (s.threads i).mc.time (UInt32.ofNat k))) ≠ [] := by
      simpa [contents, hr, slots] using hlocal
    cases hsame (level_heapClass hr _) hcontents fun b hb ↦ hmem (.inr hb)
  · intro k' hk' hne' hidx
    have hshared := hsame (x := .shared i k') rfl (mt List.map_eq_nil_iff.mp hne') fun b hb ↦
      hidx ▸ mem_after_fetch hInv hpc h hw hk' (.inl hb)
    exact (NodeList.shared.inj hshared).2

/-- Up to a fetch to a lifetime-class with nodes every list is well formed, and after it one is
not. -/
theorem Linked.wellLinked_iff (hw : g.HasWheel) (h : Linked g R (FetchesApart g) s L)
    (hi : i < g.threads) (hs : Acdc.step g R i s = .ok s') (hL : linkStep g R i s L = .ok L')
    (hA : SlotsApart s') : WellLinked s' L' ↔ FetchesApart g i s := by
  constructor
  · have hC := h.chainedNodes (p := true) hw fun _ _ _ ↦ id
    obtain ⟨L₁, hL₁, hC'⟩ := h.exists_linkStep hw hs
    obtain rfl := Except.ok.inj (hL₁.symm.trans hL)
    exact hC.fetchesApart hw (h.reachable.inv_of_hasWheel hw) hC' hs hL
  · intro hP
    exact (Linked.step i h hi hs hL hP).wellLinked hw hA

/-- Every list is well formed in a run whose fetches go to empty lifetime-classes and in which
no class slot is carved twice. The next state keeps this if its step does, and only then. -/
theorem wellLinked_of_fetchesApart (hD : 0 ≤ g.deallocationDelay.toInt)
    (h : Linked g R (FetchesApart g) s L) (hA : SlotsApart s) :
    WellLinked s L ∧ ∀ i s' L', i < g.threads → step g R i s = .ok s' →
      linkStep g R i s L = .ok L' → SlotsApart s' → (WellLinked s' L' ↔ FetchesApart g i s) :=
  ⟨h.wellLinked (GOptions.hasWheel hD) hA,
    fun _ _ _ hi hs hL hA ↦ h.wellLinked_iff (GOptions.hasWheel hD) hi hs hL hA⟩

/-! ### Runs in a given order -/

section Schedule

variable (g R) (P : Nat → Sys σ → Prop) (Q : Sys σ → Prop) [∀ i s, Decidable (P i s)]
  [DecidablePred Q]

/-- Whether a schedule runs to its end, with a condition before every step, in a state with a
given property. -/
def leadsTo : List Nat → Sys σ → Bool
  | [], s => Q s
  | i :: is, s => i < g.threads && (P i s && match step g R i s with
    | .ok s' => leadsTo is s'
    | .error _ => false)

variable {g R P Q}

/-- A schedule that runs to its end does so in memory. -/
theorem Linked.exists_of_leadsTo (hw : g.HasWheel) (is : List Nat) (h : Linked g R P s L)
    (hs : leadsTo g R P Q is s = true) : ∃ s' L', Linked g R P s' L' ∧ Q s' := by
  induction is generalizing s L with
  | nil => exact ⟨s, L, h, of_decide_eq_true hs⟩
  | cons i is ih =>
    simp only [leadsTo, Bool.and_eq_true, decide_eq_true_eq] at hs
    obtain ⟨hi, hP, hs⟩ := hs
    split at hs
    · next s' hs' =>
      obtain ⟨L', hL'⟩ := h.exists_step hw hi hs' hP
      exact ih hL' hs
    · cases hs

end Schedule

/-- Options under which a thread shares every collection with itself. -/
abbrev selfSharing : GOptions := sharingOptions 1 2 0 100

/-- A first fetch goes to an empty lifetime-class. -/
theorem wellLinked_of_fetchesApart_first :
    ∃ s L, Linked selfSharing (schrage selfSharing) (FetchesApart selfSharing) s L ∧
      (s.threads 0).mc.heapClass.map List.length = [1, 0] ∧
      WellLinked s L ∧ ∀ i s' L', i < selfSharing.threads →
        step selfSharing (schrage selfSharing) i s = .ok s' →
        linkStep selfSharing (schrage selfSharing) i s L = .ok L' → SlotsApart s' →
        (WellLinked s' L' ↔ FetchesApart selfSharing i s) := by
  have hstart := Linked.start (P := FetchesApart selfSharing) (R := schrage selfSharing) noLinks
    (show Defined selfSharing by decide) (fun _ ↦ rfl) fun _ ↦ rfl
  obtain ⟨s, L, h, hl⟩ := hstart.exists_of_leadsTo (GOptions.hasWheel (by decide))
    (List.replicate 8 0) (Q := fun s ↦ (s.threads 0).mc.heapClass.map List.length = [1, 0])
    (by decide +kernel)
  exact ⟨s, L, h, hl,
    wellLinked_of_fetchesApart (by decide) h (h.reachable.slotsApart (by decide))⟩

/-- The second fetch of a thread that shares with itself goes to a lifetime-class with a
node. -/
theorem not_forall_wellLinked :
    ¬ ∀ (g : GOptions) (s : Sys Int32) (L : Links), g.deallocationDelay = 0 →
      Linked g (schrage g) (fun _ _ ↦ True) s L → WellLinked s L := by
  intro h
  have hw : selfSharing.HasWheel := GOptions.hasWheel (by decide)
  have hstart := Linked.start (P := FetchesApart selfSharing) (R := schrage selfSharing) noLinks
    (show Defined selfSharing by decide) (fun _ ↦ rfl) fun _ ↦ rfl
  obtain ⟨s, L, hs, hok, hapart⟩ := hstart.exists_of_leadsTo hw (List.replicate 11 0)
    (Q := fun s ↦ (step selfSharing (schrage selfSharing) 0 s).isOk = true ∧
      ¬ FetchesApart selfSharing 0 s) (by decide +kernel)
  cases hstep : step selfSharing (schrage selfSharing) 0 s with
  | error e =>
    rw [hstep] at hok
    cases hok
  | ok s' =>
    have hi : 0 < selfSharing.threads := by decide
    have hrun := hs.mono (Q := fun _ _ ↦ True) fun _ _ _ ↦ trivial
    obtain ⟨L', hL', -⟩ := hs.exists_linkStep hw hstep
    have hwell := h selfSharing s' L' rfl (.step 0 hrun hi hstep hL' trivial)
    have hA : SlotsApart s' := (hs.reachable.step 0 hi hstep).slotsApart (by decide)
    exact hapart ((hs.wellLinked_iff hw hi hstep hL' hA).mp hwell)

end Acdc
