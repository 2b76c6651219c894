import Acdc.Base.TimingWheel
import Acdc.Linking

/-!
# Splices of shared lifetime-classes

`get_shared_LClasses` and `heap_class_remove` of one thread, from arbitrary contents of its two
heap-classes, each lifetime-class linked forwards only. No node is lost or in two
lifetime-classes afterwards, and the removal of one gives back each of its nodes once. The index
of a lifetime-class is an `unsigned int` sum, `src/acdc.c:133`; where the insertion has an
`unsigned long` one, `src/acdc.c:111`.
-/

namespace Acdc

open DList

variable {g : GOptions} {i : Nat} {time : UInt32} {L : Links} {heapClass shared : Nat → List Slot}
  {cache : List Slot}

/-! ### Two heap-classes and a cache -/

/-- The nodes of thread `i`: those of its local and its shared heap-class and of its cache. -/
def pooled (g : GOptions) (i : Nat) (heapClass shared : Nat → List Slot) (cache : List Slot) :
    NodeList → List Slot
  | .heapClass j k => if j = i ∧ k < g.wheelSize then heapClass k else []
  | .shared j k => if j = i ∧ k < g.life then shared k else []
  | .nodeCache j => if j = i then cache else []
  | .iterator _ => []

/-- The lifetime-classes of thread `i` are linked forwards, and its cache is well formed. Of
other lists nothing is known. -/
def pooledLevel (g : GOptions) (i : Nat) : NodeList → Store.Level
  | .heapClass j k => if j = i ∧ k < g.wheelSize then .forward else .stale
  | .shared j k => if j = i ∧ k < g.life then .forward else .stale
  | .nodeCache j => if j = i then .both else .stale
  | .iterator _ => .stale

section Lists

variable {m : Store NodeList Slot} (h : m.Holds (pooled g i heapClass shared cache)
  (pooledLevel g i))
include h

theorem forward_heapClass {k : Nat} (hk : k < g.wheelSize) :
    m.Forward (.heapClass i k) (heapClass k) := by
  have hl := h.at_list (.heapClass i k)
  rw [pooled, pooledLevel, if_pos ⟨rfl, hk⟩, if_pos ⟨rfl, hk⟩] at hl
  exact hl

theorem forward_shared {k : Nat} (hk : k < g.life) : m.Forward (.shared i k) (shared k) := by
  have hl := h.at_list (.shared i k)
  rw [pooled, pooledLevel, if_pos ⟨rfl, hk⟩, if_pos ⟨rfl, hk⟩] at hl
  exact hl

end Lists

/-! ### The fetch -/

/-- The nodes of a local lifetime-class after a fetch. -/
def fetchedTo (g : GOptions) (time : UInt32) (heapClass shared : Nat → List Slot) (n j : Nat) :
    List Slot :=
  heapClass j ++ (List.range n).flatMap fun k ↦
    if heapClassGetIndex g time (UInt32.ofNat k) = j then shared k else []

/-- The nodes of a shared lifetime-class after the splice of the first `n`. -/
def leftShared (shared : Nat → List Slot) (n k : Nat) : List Slot :=
  if k < n then [] else shared k

theorem spliced_pooled (hw : g.HasWheel) {k : Nat} (hk : k < g.life) :
    spliced g i time
        (pooled g i (fetchedTo g time heapClass shared k) (leftShared shared k) cache) k =
      pooled g i (fetchedTo g time heapClass shared (k + 1)) (leftShared shared (k + 1))
        cache := by
  have hidx := Nat.mod_lt (time + UInt32.ofNat k).toNat (hw (Nat.zero_lt_of_lt hk))
  change heapClassGetIndex g time (UInt32.ofNat k) < _ at hidx
  funext x
  cases x with
  | heapClass j k' =>
    by_cases hj : j = i
    · subst hj
      by_cases hk' : k' = heapClassGetIndex g time (UInt32.ofNat k)
      · subst hk'
        simp [spliced, pooled, fetchedTo, leftShared, hidx, hk, List.range_succ]
      · simp [spliced, pooled, fetchedTo, hk', Ne.symm hk', List.range_succ]
    · simp [spliced, pooled, hj]
  | shared j k' =>
    by_cases hj : j = i
    · subst hj
      by_cases hk' : k' = k
      · subst hk'
        simp [spliced, pooled, leftShared]
      · have hlt : k' ≤ k ↔ k' < k := Nat.le_iff_lt_or_eq.trans (or_iff_left hk')
        simp [spliced, pooled, leftShared, hk', hlt]
    · simp [spliced, pooled, hj]
  | nodeCache | iterator => simp [spliced, pooled]

private theorem holds_splices (hw : g.HasWheel)
    (h : L.nodes.Holds (pooled g i heapClass shared cache) (pooledLevel g i)) {n : Nat}
    (hn : n ≤ g.life) :
    ∃ m, (List.range n).foldlM (Links.fetchLClass g i time) L.nodes = .ok m ∧
      m.Holds (pooled g i (fetchedTo g time heapClass shared n) (leftShared shared n) cache)
        (pooledLevel g i) := by
  induction n with
  | zero =>
    have hf : fetchedTo g time heapClass shared 0 = heapClass := by
      funext j
      exact List.append_nil _
    refine ⟨L.nodes, rfl, ?_⟩
    rwa [hf]
  | succ n ih =>
    obtain ⟨m, hm, hh⟩ := ih (Nat.le_of_succ_le hn)
    have hidx := Nat.mod_lt (time + UInt32.ofNat n).toNat (hw (Nat.zero_lt_of_lt hn))
    have hs : pooledLevel g i (.shared i n) = .forward := if_pos ⟨rfl, hn⟩
    have hto : pooledLevel g i
        (.heapClass i (heapClassGetIndex g time (UInt32.ofNat n))) = .forward :=
      if_pos ⟨rfl, hidx⟩
    obtain ⟨m', hm', hh'⟩ := holds_splice hh (.inl hs) fun _ ↦ .inl hto
    rw [spliced_pooled hw hn] at hh'
    refine ⟨m', ?_, hh'⟩
    rw [List.range_succ, List.foldlM_append, hm]
    exact (bind_pure _).trans hm'

/-- The fetch loses no node: it empties the shared heap-class into the local one. -/
theorem holds_getSharedLClasses (time : UInt32) (hw : g.HasWheel)
    (h : L.nodes.Holds (pooled g i heapClass shared cache) (pooledLevel g i)) :
    ∃ L', L.getSharedLClasses g i time = .ok L' ∧ L'.classes = L.classes ∧
      L'.nodes.Holds
        (pooled g i (fetchedTo g time heapClass shared g.life) (fun _ ↦ []) cache)
        (pooledLevel g i) := by
  obtain ⟨m, hm, hh⟩ := holds_splices hw h (Nat.le_refl g.life)
  have hleft : pooled g i (fetchedTo g time heapClass shared g.life) (leftShared shared g.life)
      cache = pooled g i (fetchedTo g time heapClass shared g.life) (fun _ ↦ []) cache := by
    funext x
    cases x with
    | shared j k =>
      simp only [pooled, leftShared, ite_self]
      split
      · next hjk => rw [if_pos hjk.2]
      · rfl
    | _ => rfl
  rw [hleft] at hh
  refine ⟨{ L with nodes := m }, ?_, rfl, hh⟩
  rw [Links.getSharedLClasses, hm]
  rfl

/-! ### The removal -/

private theorem holds_removeLoop {f : NodeList → List Slot} {v : NodeList → Store.Level}
    {expired : List Slot} (hv : v (.iterator i) = .walk) (hc : v (.nodeCache i) = .both)
    {fuel : Nat} (hfuel : expired.length < fuel) (h : L.nodes.Holds f v)
    (hi : f (.iterator i) = expired) :
    ∃ L', Links.removeLoop i fuel L = .ok (expired, L') ∧
      L'.nodes.Holds (Function.update (Function.update f (.iterator i) []) (.nodeCache i)
        (expired.reverse ++ f (.nodeCache i))) v := by
  induction expired generalizing fuel f L with
  | nil =>
    obtain ⟨fuel, rfl⟩ := Nat.exists_eq_add_one_of_ne_zero (Nat.ne_of_gt hfuel)
    have hfirst := (h.at_list (.iterator i)).first (by rw [hv]; nofun)
    rw [hi, List.head?_nil] at hfirst
    have hself : Function.update (Function.update f (.iterator i) []) (.nodeCache i)
        ([].reverse ++ f (.nodeCache i)) = f := by
      rw [List.reverse_nil, List.nil_append, ← hi, Function.update_eq_self,
        Function.update_eq_self]
    rw [hself]
    refine ⟨L, ?_, h⟩
    rw [Links.removeLoop, hfirst]
  | cons node expired ih =>
    obtain ⟨fuel, rfl⟩ := Nat.exists_eq_add_one_of_ne_zero (Nat.ne_of_gt (Nat.zero_lt_of_lt hfuel))
    have hfirst := (h.at_list (.iterator i)).first (by rw [hv]; nofun)
    rw [hi, List.head?_cons] at hfirst
    obtain ⟨L₁, hgive, -, h₁⟩ := holds_giveBack h hi hv hc
    obtain ⟨L', hL', h'⟩ := ih (Nat.lt_of_succ_lt_succ hfuel) h₁ (by simp)
    refine ⟨L', ?_, ?_⟩
    · rw [Links.removeLoop, hfirst]
      simp only [hgive, hL', bind, Except.bind, pure, Except.pure]
    · simpa [Function.update_comm] using h'

/-- The removal gives back the nodes of the expired lifetime-class, each once. -/
theorem holds_heapClassRemove {f : NodeList → List Slot} {v : NodeList → Store.Level} {k : Nat}
    (hk : heapClassRemoveIndex g time = k) (hv : v (.heapClass i k) = .forward)
    (hvi : v (.iterator i) = .stale) (hc : v (.nodeCache i) = .both) {fuel : Nat}
    (hfuel : (f (.heapClass i k)).length < fuel) (h : L.nodes.Holds f v)
    (hi : f (.iterator i) = []) :
    ∃ L', L.heapClassRemove g i time fuel = .ok (f (.heapClass i k), L') ∧
      L'.nodes.Holds (Function.update (Function.update f (.heapClass i k) []) (.nodeCache i)
        ((f (.heapClass i k)).reverse ++ f (.nodeCache i))) v := by
  have hne : NodeList.heapClass i k ≠ .iterator i := nofun
  have hstart : (L.startRemove i k).nodes.Holds _ _ := h.detach hne (.inl hv) hi
  obtain ⟨L₁, hL₁, h₁⟩ := holds_removeLoop (Function.update_self ..) (by simpa using hc) hfuel
    hstart (Function.update_self ..)
  have hend := holds_endRemove (k := k) h₁ (Function.update_self ..) (by simp) (by simp) .forward
  have hlists : Function.update (Function.update (Function.update (Function.update f
      (.heapClass i k) []) (.iterator i) (f (.heapClass i k))) (.iterator i) []) (.nodeCache i)
        ((f (.heapClass i k)).reverse ++ Function.update (Function.update f (.heapClass i k) [])
          (.iterator i) (f (.heapClass i k)) (.nodeCache i)) =
      Function.update (Function.update f (.heapClass i k) []) (.nodeCache i)
        ((f (.heapClass i k)).reverse ++ f (.nodeCache i)) := by
    have hit : Function.update (Function.update f (.heapClass i k) []) (.iterator i) [] =
        Function.update f (.heapClass i k) [] := by simp [hi]
    rw [Function.update_idem, hit, Function.update_of_ne (by nofun),
      Function.update_of_ne (by nofun)]
  have hlevels : Function.update (Function.update (Function.update (Function.update v
      (.heapClass i k) .stale) (.iterator i) .walk) (.heapClass i k) .forward) (.iterator i) .stale
        = v := by
    have hself : Function.update v (.heapClass i k) .forward = v :=
      Function.update_eq_self_iff.mpr hv.symm
    rw [Function.update_comm hne.symm, Function.update_idem, Function.update_idem, hself,
      Function.update_eq_self_iff.mpr hvi.symm]
  rw [hlists, hlevels] at hend
  refine ⟨L₁.endRemove i k, ?_, hend⟩
  simp only [Links.heapClassRemove, hk, hL₁, bind, Except.bind, pure, Except.pure]

/-- Whenever a removal comes, it unreferences the nodes of its lifetime-class and gives each of
them back once. -/
def RemovesEach (g : GOptions) (i : Nat) (L : Links) (cache : List Slot) : Prop :=
  ∀ (time : UInt32) (l : List Slot),
    L.nodes.Forward (.heapClass i (heapClassRemoveIndex g time)) l → ∀ fuel, l.length < fuel →
      ∃ L', L.heapClassRemove g i time fuel = .ok (l, L') ∧
        L'.nodes.Forward (.heapClass i (heapClassRemoveIndex g time)) [] ∧
          L'.nodes.WellFormed (.nodeCache i) (l.reverse ++ cache) ∧ (l.reverse ++ cache).Nodup

theorem removesEach (hM : 0 < g.maxLiveness.toInt) (hD : 0 ≤ g.deallocationDelay.toInt)
    (h : L.nodes.Holds (pooled g i heapClass shared cache) (pooledLevel g i)) :
    RemovesEach g i L cache := by
  intro time l hl fuel hfuel
  have hk := heapClassRemoveIndex_lt hM hD time
  have hlist : pooled g i heapClass shared cache
      (.heapClass i (heapClassRemoveIndex g time)) = l := by
    rw [pooled, if_pos ⟨rfl, hk⟩]
    exact (forward_heapClass h hk).next.unique hl.next
  have hcache : pooled g i heapClass shared cache (.nodeCache i) = cache := if_pos rfl
  have hv : pooledLevel g i (.heapClass i (heapClassRemoveIndex g time)) = .forward :=
    if_pos ⟨rfl, hk⟩
  have hc : pooledLevel g i (.nodeCache i) = .both := if_pos rfl
  obtain ⟨L', hL', h'⟩ := holds_heapClassRemove rfl hv rfl hc (hlist.symm ▸ hfuel) h rfl
  rw [hlist] at hL'
  rw [hlist, hcache] at h'
  have hempty := h'.at_list (.heapClass i (heapClassRemoveIndex g time))
  have hback := h'.at_list (.nodeCache i)
  have hnodup := h'.separate.nodup (.nodeCache i)
  rw [hv, Function.update_of_ne (by nofun), Function.update_self] at hempty
  rw [hc, Function.update_self] at hback
  rw [Function.update_self] at hnodup
  exact ⟨L', hL', hempty, hback, hnodup⟩

/-! ### The index -/

/-- The sum of the clock and the index wraps at `2 ^ 32`. -/
theorem heapClassGetIndex_eq_iff {k : Nat} (hk : k < 2 ^ 32) :
    heapClassGetIndex g time (UInt32.ofNat k) = (time.toNat + k) % g.wheelSize ↔
      time.toNat + k < 2 ^ 32 ∨ g.wheelSize ∣ 2 ^ 32 := by
  have ht := time.toNat_lt
  by_cases hlt : time.toNat + k < 2 ^ 32
  · exact iff_of_true (heapClassGetIndex_ofNat hlt) (.inl hlt)
  · have hge : 2 ^ 32 ≤ time.toNat + k := Nat.le_of_not_lt hlt
    have hwrap : (time + UInt32.ofNat k).toNat = time.toNat + k - 2 ^ 32 := by
      rw [UInt32.toNat_add, UInt32.toNat_ofNat', Nat.mod_eq_of_lt hk]
      omega
    rw [heapClassGetIndex, hwrap, or_iff_right hlt]
    have hdvd := Nat.modEq_iff_dvd' (n := g.wheelSize) (Nat.sub_le (time.toNat + k) (2 ^ 32))
    rwa [Nat.sub_sub_self hge] at hdvd

/-! ### The drain -/

/-- Entry `time + k` of the local heap-class gets the nodes of shared entry `k` at its end, and
every node is given back once. -/
def Drains (g : GOptions) (i : Nat) (time : UInt32) (L : Links) (heapClass shared : Nat → List Slot)
    (cache : List Slot) : Prop :=
  ∃ L', L.getSharedLClasses g i time = .ok L' ∧
    (∀ k < g.life, L'.nodes.Forward (.shared i k) []) ∧
    (∀ k < g.life, L'.nodes.Forward (.heapClass i ((time.toNat + k) % g.wheelSize))
      (heapClass ((time.toNat + k) % g.wheelSize) ++ shared k)) ∧
    (∀ j < g.wheelSize, (∀ k < g.life, (time.toNat + k) % g.wheelSize ≠ j) →
      L'.nodes.Forward (.heapClass i j) (heapClass j)) ∧
    RemovesEach g i L' cache

private theorem flatMap_single {f : Nat → List Slot} {k : Nat} {ks : List Nat} (hks : ks.Nodup)
    (hk : k ∈ ks) : (ks.flatMap fun k' ↦ if k' = k then f k' else []) = f k := by
  induction ks with
  | nil => cases hk
  | cons j ks ih =>
    obtain ⟨hj, hks⟩ := List.nodup_cons.mp hks
    rw [List.flatMap_cons]
    obtain rfl | hk := List.mem_cons.mp hk
    · have hnil : (ks.flatMap fun k' ↦ if k' = k then f k' else []) = [] := by
        rw [List.flatMap_eq_nil_iff]
        exact fun k' hk' ↦ if_neg (ne_of_mem_of_not_mem hk' hj)
      rw [if_pos rfl, hnil, List.append_nil]
    · rw [if_neg (ne_of_mem_of_not_mem hk hj).symm, List.nil_append, ih hks hk]

section Drain

variable (hM : 0 < g.maxLiveness.toInt) (hD : 0 ≤ g.deallocationDelay.toInt)
include hM hD

private theorem Drains.index
    (h : L.nodes.Holds (pooled g i heapClass shared cache) (pooledLevel g i))
    (hd : Drains g i time L heapClass shared cache) {k : Nat} (hk : k < g.life)
    (hne : shared k ≠ []) :
    heapClassGetIndex g time (UInt32.ofNat k) = (time.toNat + k) % g.wheelSize := by
  have hw : g.HasWheel := fun _ ↦ wheelSize_pos hM hD
  obtain ⟨L₁, hL₁, -, h₁⟩ := holds_getSharedLClasses time hw h
  obtain ⟨L', hL', -, hto, -⟩ := hd
  obtain rfl : L₁ = L' := Except.ok.inj (hL₁.symm.trans hL')
  have hlt := Nat.mod_lt (time.toNat + k) (wheelSize_pos hM hD)
  have hlist := (hto k hk).next.unique (forward_heapClass h₁ hlt).next
  obtain ⟨a, ha⟩ := List.exists_mem_of_ne_nil _ hne
  have ha₁ : a ∈ fetchedTo g time heapClass shared g.life ((time.toNat + k) % g.wheelSize) :=
    hlist ▸ List.mem_append_right _ ha
  have ha₂ : a ∈ fetchedTo g time heapClass shared g.life
      (heapClassGetIndex g time (UInt32.ofNat k)) :=
    List.mem_append_right _ (List.mem_flatMap.mpr ⟨k, List.mem_range.mpr hk, by rwa [if_pos rfl]⟩)
  have hsame := h₁.separate.disjoint
    (.heapClass i (heapClassGetIndex g time (UInt32.ofNat k)))
    (.heapClass i ((time.toNat + k) % g.wheelSize)) a
    (by rwa [pooled, if_pos ⟨rfl, heapClassGetIndex_lt hM hD time _⟩])
    (by rwa [pooled, if_pos ⟨rfl, hlt⟩])
  exact (NodeList.heapClass.inj hsame).2

private theorem index_injective {k k' : Nat} (hk : k < g.life) (hk' : k' < g.life)
    (h : (time.toNat + k') % g.wheelSize = (time.toNat + k) % g.wheelSize) : k' = k := by
  have hsize := GOptions.wheelSize_eq hM hD
  have hwindow (r : Nat) (hr : r < g.life) :
      time.toNat ≤ time.toNat + r ∧ time.toNat + r < time.toNat + g.wheelSize := by omega
  exact Nat.add_left_cancel (TimingWheel.eq_of_window h (hwindow k' hk') (hwindow k hk))

private theorem drains_of_index
    (h : L.nodes.Holds (pooled g i heapClass shared cache) (pooledLevel g i))
    (hidx : ∀ k < g.life, shared k ≠ [] →
      heapClassGetIndex g time (UInt32.ofNat k) = (time.toNat + k) % g.wheelSize) :
    Drains g i time L heapClass shared cache := by
  have hw : g.HasWheel := fun _ ↦ wheelSize_pos hM hD
  obtain ⟨L', hL', -, h'⟩ := holds_getSharedLClasses time hw h
  have hentry (j : Nat) : fetchedTo g time heapClass shared g.life j =
      heapClass j ++ (List.range g.life).flatMap fun k ↦
        if (time.toNat + k) % g.wheelSize = j then shared k else [] := by
    rw [fetchedTo]
    congr 1
    apply List.flatMap_congr
    intro k hk
    by_cases hne : shared k = []
    · rw [hne, ite_self, ite_self]
    · rw [hidx k (List.mem_range.mp hk) hne]
  refine ⟨L', hL', fun k hk ↦ forward_shared h' hk, ?_, ?_, removesEach hM hD h'⟩
  · intro k hk
    have hl := forward_heapClass h' (Nat.mod_lt (time.toNat + k) (wheelSize_pos hM hD))
    have hone : ((List.range g.life).flatMap fun k' ↦
        if (time.toNat + k') % g.wheelSize = (time.toNat + k) % g.wheelSize then shared k'
        else []) = shared k := by
      rw [← flatMap_single (f := shared) List.nodup_range (List.mem_range.mpr hk)]
      apply List.flatMap_congr
      intro k' hk'
      have hiff : (time.toNat + k') % g.wheelSize = (time.toNat + k) % g.wheelSize ↔ k' = k :=
        ⟨index_injective hM hD hk (List.mem_range.mp hk'), fun he ↦ he ▸ rfl⟩
      rw [if_congr hiff rfl rfl]
    rwa [hentry, hone] at hl
  · intro j hj hno
    have hl := forward_heapClass h' hj
    have hnone : ((List.range g.life).flatMap fun k ↦
        if (time.toNat + k) % g.wheelSize = j then shared k else []) = [] := by
      rw [List.flatMap_eq_nil_iff]
      exact fun k hk ↦ if_neg (hno k (List.mem_range.mp hk))
    rwa [hentry, hnone, List.append_nil] at hl

/-- Draining puts every shared lifetime-class at the end of its local one if and only if none of
those with nodes lies beyond the wrap of the clock, or the wheel divides that. -/
theorem drains_iff (h : L.nodes.Holds (pooled g i heapClass shared cache) (pooledLevel g i)) :
    Drains g i time L heapClass shared cache ↔
      ∀ k < g.life, shared k ≠ [] → time.toNat + k < 2 ^ 32 ∨ g.wheelSize ∣ 2 ^ 32 := by
  have hlife := g.life_lt
  constructor
  · intro hd k hk hne
    exact (heapClassGetIndex_eq_iff (by omega)).mp (hd.index hM hD h hk hne)
  · intro hwrap
    apply drains_of_index hM hD h
    intro k hk hne
    exact (heapClassGetIndex_eq_iff (by omega)).mpr (hwrap k hk hne)

/-- Draining empties every shared lifetime-class to the end of its local one. Clocks count up to
the duration, an `int`. -/
theorem getSharedLClasses_drains (ht : time.toNat < 2 ^ 31)
    (h : L.nodes.Holds (pooled g i heapClass shared cache) (pooledLevel g i)) :
    Drains g i time L heapClass shared cache := by
  have hlife := g.life_lt
  exact (drains_iff hM hD h).mpr fun k hk _ ↦ .inl (by omega)

end Drain

-- A memory with one node in each of the first two shared lifetime-classes of thread 0.
private def twoShared : Links where
  nodes := (lclassInsertEnd (lclassInsertEnd ⟨fun _ ↦ ⟨none, none⟩, fun _ ↦ ⟨none, none⟩⟩
    (.shared 0 0) ⟨0, 0⟩) (.shared 0 1) ⟨0, 1⟩)
  classes := ⟨fun _ ↦ ⟨none, none⟩, fun _ ↦ ⟨none, none⟩⟩

private def oneEach (k : Nat) : List Slot := if k < 2 then [⟨0, k⟩] else []

private theorem holds_twoShared (hg : 2 ≤ g.life) :
    twoShared.nodes.Holds (pooled g 0 (fun _ ↦ []) oneEach []) (pooledLevel g 0) := by
  have hv (k : Nat) (hk : k < 2) : pooledLevel g 0 (.shared 0 k) = .forward :=
    if_pos ⟨rfl, by omega⟩
  have h₀ : Store.Holds (⟨fun _ ↦ ⟨none, none⟩, fun _ ↦ ⟨none, none⟩⟩ : Store NodeList Slot)
      (fun _ ↦ []) (pooledLevel g 0) := .empty (fun _ ↦ rfl) (fun _ ↦ rfl)
  have h₁ := h₀.insertEnd (c := ⟨0, 0⟩) (.inl (hv 0 (by decide))) fun _ ↦ List.not_mem_nil
  have hnew (x : NodeList) : (⟨0, 1⟩ : Slot) ∉ Function.update (fun _ ↦ [])
      (NodeList.shared 0 0) ([] ++ [(⟨0, 0⟩ : Slot)]) x := by
    intro hx
    by_cases h : x = .shared 0 0 <;> simp [h] at hx
  have h₂ := h₁.insertEnd (.inl (hv 1 (by decide))) hnew
  have hlists : Function.update (Function.update (fun _ ↦ []) (NodeList.shared 0 0)
      ([] ++ [⟨0, 0⟩])) (.shared 0 1) ((Function.update (fun _ ↦ []) (NodeList.shared 0 0)
        ([] ++ [(⟨0, 0⟩ : Slot)])) (.shared 0 1) ++ [⟨0, 1⟩]) =
      pooled g 0 (fun _ ↦ []) oneEach [] := by
    funext x
    cases x with
    | shared j k =>
      by_cases hj : j = 0
      · subst hj
        obtain rfl | rfl | hk : k = 0 ∨ k = 1 ∨ 2 ≤ k := by omega
        · simp [pooled, oneEach, show 0 < g.life by omega]
        · simp [pooled, oneEach, show 1 < g.life by omega]
        · simp [pooled, oneEach, show k ≠ 0 by omega, show k ≠ 1 by omega, Nat.not_lt.mpr hk]
      · simp [pooled, hj]
    | _ => simp [pooled]
  rw [← hlists]
  exact h₂

/-- Two shared lifetime-classes are fetched to two local ones. -/
theorem getSharedLClasses_drains_three :
    Drains (smallOptions 1 3 0) 0 7 twoShared (fun _ ↦ []) oneEach [] :=
  getSharedLClasses_drains (by decide) (by decide) (by decide) (holds_twoShared (by decide))

/-- The clocks of runs count the quanta of a duration that is an `int`. -/
theorem Reachable.drains {σ : Type} {R : Generator σ} {s : Sys σ}
    (hM : 0 < g.maxLiveness.toInt) (hD : 0 ≤ g.deallocationDelay.toInt) (hs : Reachable g R s)
    (h : L.nodes.Holds (pooled g i heapClass shared cache) (pooledLevel g i)) :
    Drains g i (s.threads i).mc.time L heapClass shared cache := by
  have hlife := g.life_lt
  have ht := hs.clock_lt i
  exact (drains_iff hM hD h).mpr fun k hk _ ↦ .inl (by omega)

end Acdc
