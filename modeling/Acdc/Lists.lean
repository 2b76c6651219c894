import Acdc.Objects

/-!
# List-based collections

Builders, traversal and deallocators of the types `LIST` and `OPTIMAL_LIST`:
`src/lifetime-size-classes.c:273–347`. The descriptor that a builder gets from
`new_LSClass` is that of `Acdc.allocateLSClass`; here a builder returns its `start`.
Loops over links run for a bounded number of turns.
-/

namespace Acdc.Objects

open Fallible Heap Memory

variable (A : Allocator)

/-- `src/lifetime-size-classes.c:273–289`. -/
def traverseList (g : GOptions) (sz : UInt64) : Nat → Nat → UInt64 → Heap → Except Stop Heap
  | 0, _, _, _ => .error .outOfFuel
  | fuel + 1, accessCounter, list, h =>
    if list = 0 then return h
    else do
      let h ← writeElement g h accessCounter list sz sizeofLObject
      let accessCounter ← int (accessCounter + 1)
      let (list, h) ← loadLink h list.toNat
      traverseList g sz fuel accessCounter list h

/-- `traverse_list` with its visits, in order. -/
def visitList (g : GOptions) (sz : UInt64) :
    Nat → Nat → UInt64 → Heap → Except Stop (List Visit × Heap)
  | 0, _, _, _ => .error .outOfFuel
  | fuel + 1, accessCounter, list, h =>
    if list = 0 then return ([], h)
    else do
      let (v, h) ← visitElement g h accessCounter list sz sizeofLObject
      let accessCounter ← int (accessCounter + 1)
      let (list, h) ← loadLink h list.toNat
      let (vs, h) ← visitList g sz fuel accessCounter list h
      return (v :: vs, h)

/-- `src/lifetime-size-classes.c:291–308`. -/
def allocateOptimalListUnaligned (h : Heap) (sz nelem : UInt64) :
    Except Stop (UInt64 × Heap) := do
  let (start, h) ← allocate A h (sz * nelem)
  let n ← int nelem.toNat
  let (tmp, h) ← (List.range (n - 1)).foldlM (fun p _ ↦ do
    let h ← storeLink p.2 p.1.toNat (p.1 + sz)
    loadLink h p.1.toNat) (start, h)
  let h ← storeLink h tmp.toNat 0
  return (start, h)

/-- `src/lifetime-size-classes.c:310–313`. -/
def deallocateOptimalListUnaligned (h : Heap) (start : UInt64) : Except Stop Heap :=
  deallocate A h start

/-- `src/lifetime-size-classes.c:315–336`. -/
def allocateList (h : Heap) (sz nelem : UInt64) : Except Stop (UInt64 × Heap) := do
  sizeCheck .list sz
  let (start, h) ← allocate A h sz
  let n ← int nelem.toNat
  let (tmp, h) ← (List.range (n - 1)).foldlM (fun p _ ↦ do
    let (next, h) ← allocate A p.2 sz
    let h ← storeLink h p.1.toNat next
    loadLink h p.1.toNat) (start, h)
  let h ← storeLink h tmp.toNat 0
  return (start, h)

/-- `src/lifetime-size-classes.c:339–347`. -/
def deallocateList : Nat → UInt64 → Heap → Except Stop Heap
  | 0, _, _ => .error .outOfFuel
  | fuel + 1, l, h =>
    if l = 0 then return h
    else do
      let (n, h) ← loadLink h l.toNat
      let h ← deallocate A h l
      deallocateList fuel n h

/-! ### Builders -/

section

variable {A} {E : Stop → Prop} {sz : UInt64}

/-- An object that is not at address 0. -/
theorem ne_zero_of_valid {q : UInt64} (h : (object sz q).Valid) : q ≠ 0 := by
  rintro rfl
  exact absurd h.start_pos (lt_irrefl 0)

/-- The store and the load of `tmp->next` put the next object at the end of a list. -/
theorem link_spec {h : Heap} {start tmp : UInt64} (next : UInt64) {objs : List UInt64}
    (hsz : 8 ≤ sz.toNat) (L : Layout sz (objs ++ [tmp]) h) (ht : tmp ≠ 0)
    (hl : ListAt h.bytes start objs tmp) :
    Yields E (storeLink h tmp.toNat next) fun h' ↦
      ListAt h'.bytes start (objs ++ [tmp]) next ∧ h'.Covers ⟨tmp.toNat, 8⟩ ∧
        h'.bytes.load tmp.toNat = next ∧ Grows [] (Region.Has ⟨tmp.toNat, 8⟩) h h' := by
  have htm : tmp ∈ objs ++ [tmp] := List.mem_append_right _ (List.mem_singleton_self tmp)
  have hc := L.covers_link htm (k := 0) hsz
  apply (storeLink_spec hc).imp
  rintro _ rfl
  have H := grows_storeWord h tmp.toNat next
  have hn : (h.storeWord tmp.toNat next).bytes.load tmp.toNat = next := load_store _ _ _
  refine ⟨?_, H.covers hc, hn, H⟩
  have hs : SameHeaders 8 objs h.bytes (h.storeWord tmp.toNat next).bytes := by
    apply (L.subset (List.sublist_append_left objs [tmp])).sameHeaders H hsz
    intro o ho x hx hx' hw
    have hap := (List.pairwise_append.mp L.apart).2.2 o ho tmp (List.mem_singleton_self tmp)
    exact hap.not_has (object_has.mpr ⟨hx, by omega⟩)
      (object_has.mpr ⟨hw.1, hw.2.trans_le (Nat.add_le_add_left hsz _)⟩)
  have hl' := (hl.congr le_rfl hs).snoc ht
  rwa [hn] at hl'

private theorem mem_snoc (objs : List UInt64) (tmp : UInt64) : tmp ∈ objs ++ [tmp] :=
  List.mem_append_right _ (List.mem_singleton_self tmp)

/-- One turn of `allocate_list` puts a new object at the end of the list. -/
theorem appendObject_spec (hE : E .outOfMemory) (hsz : 8 ≤ sz.toNat) {h h₂ : Heap}
    {start tmp : UInt64} {objs : List UInt64} (ht : tmp ≠ 0)
    (hl : ListAt h₂.bytes start objs tmp)
    (H : Builds ((objs ++ [tmp]).map (object sz)) h h₂) :
    Yields E (do
      let (next, h) ← allocate A h₂ sz
      let h ← storeLink h tmp.toNat next
      loadLink h tmp.toNat) fun (next, h') ↦ next ≠ 0 ∧
        ListAt h'.bytes start (objs ++ [tmp]) next ∧
        Builds ((objs ++ [tmp] ++ [next]).map (object sz)) h h' := by
  have hp : 0 < sz := UInt64.lt_iff_toNat_lt.mpr (by simpa using by omega)
  have L := layout_of_grows H.grows
  apply (allocate_spec hE A h₂ hp).bind
  rintro ⟨next, h₃⟩ ⟨hv₃, H₃⟩
  have hl₃ : ListAt h₃.bytes start objs tmp := hl.congr (n := 8) le_rfl
    ((L.subset (List.sublist_append_left objs [tmp])).sameHeaders H₃.grows hsz
      fun _ _ _ _ _ hw ↦ hw)
  have H₃' : Builds ((objs ++ [tmp] ++ [next]).map (object sz)) h h₃ := by
    rw [List.map_append]
    exact H.trans H₃
  apply (link_spec next hsz (L.grows H₃.grows) ht hl₃).bind
  rintro h₄ ⟨hl₄, hc₄, hn₄, H₄⟩
  have H₄' := step_link H₃' (List.mem_append_left _ (mem_snoc objs tmp)) (k := 0) hsz H₄
  apply (loadLink_spec hc₄).imp
  rintro _ rfl
  show h₄.bytes.load tmp.toNat ≠ 0 ∧ ListAt h₄.bytes start (objs ++ [tmp])
    (h₄.bytes.load tmp.toNat) ∧ Builds ((objs ++ [tmp] ++ [h₄.bytes.load tmp.toNat]).map _) h _
  rw [hn₄]
  exact ⟨ne_zero_of_valid hv₃, hl₄, H₄'.step (grows_loadWord h₄ tmp.toNat) fun _ hw ↦ hw.elim⟩

/-- The objects of `allocate_list` are allocated one by one and linked in this order. -/
theorem allocateList_spec (hE : E .outOfMemory) (h : Heap) {nelem : UInt64}
    (hsz : 8 ≤ sz.toNat) (h0 : 0 < nelem.toNat) (hn : nelem.toNat < 2 ^ 31) :
    Yields E (allocateList A h sz nelem) fun (start, h') ↦
      ∃ objs, objs.length = nelem.toNat ∧ ListAt h'.bytes start objs 0 ∧
        Builds (objs.map (object sz)) h h' := by
  have hp : 0 < sz := UInt64.lt_iff_toNat_lt.mpr (by simpa using by omega)
  have hc : sizeCheck .list sz = .ok () := if_neg (UInt64.not_lt.mpr hsz)
  unfold allocateList
  rw [hc]
  apply (allocate_spec hE A h hp).bind
  rintro ⟨start, h₁⟩ ⟨hv, H₁⟩
  apply (int_spec hn).bind
  rintro _ rfl
  -- the objects so far, with `tmp` the last one
  apply (Yields.foldlM_range (P := fun i p ↦ ∃ objs, objs.length = i ∧ p.1 ≠ 0 ∧
    ListAt p.2.bytes start objs p.1 ∧
      Builds ((objs ++ [p.1]).map (object sz)) h p.2) _ ?_ ?_).bind
  · rintro ⟨tmp, h₂⟩ ⟨objs, hlen, ht, hl, H₂⟩
    apply (link_spec 0 hsz (layout_of_grows H₂.grows) ht hl).bind
    rintro h₃ ⟨hl₃, -, -, H₃⟩
    refine ⟨objs ++ [tmp], ?_, hl₃, step_link H₂ (mem_snoc objs tmp) (k := 0) hsz H₃⟩
    rw [List.length_append, List.length_singleton, hlen]
    exact Nat.sub_add_cancel h0
  · exact ⟨[], rfl, ne_zero_of_valid hv, rfl, H₁⟩
  · rintro i hi ⟨tmp, h₂⟩ ⟨objs, hlen, ht, hl, H₂⟩
    apply (appendObject_spec hE hsz ht hl H₂).imp
    rintro ⟨next, h₃⟩ ⟨hn₃, hl₃, H₃⟩
    exact ⟨objs ++ [tmp], by rw [List.length_append, hlen]; rfl, hn₃, hl₃, H₃⟩

/-- The objects of `allocate_optimal_list_unaligned` are the elements of one array, linked in
this order. -/
theorem allocateOptimalListUnaligned_spec (hE : E .outOfMemory) (h : Heap) {nelem : UInt64}
    (hsz : 8 ≤ sz.toNat) (hm : sz.toNat * nelem.toNat < 2 ^ 64) (h0 : 0 < nelem.toNat)
    (hn : nelem.toNat < 2 ^ 31) :
    Yields E (allocateOptimalListUnaligned A h sz nelem) fun (start, h') ↦
      start.toNat + sz.toNat * nelem.toNat ≤ 2 ^ 64 ∧
      ListAt h'.bytes start ((List.range nelem.toNat).map (elementAt start sz)) 0 ∧
        Grows [⟨start.toNat, sz.toNat * nelem.toNat⟩] (fun _ ↦ False) h h' := by
  have hp : 0 < sz.toNat := by omega
  unfold allocateOptimalListUnaligned
  apply (allocate_array_spec A hm hE h hp h0).bind
  rintro ⟨start, h₁⟩ ⟨hs0, hle, H₁⟩
  apply (int_spec hn).bind
  rintro _ rfl
  have hlayout (i : Nat) (hi : i < nelem.toNat) {h₂ : Heap} (H₂ : Grows
      [⟨start.toNat, sz.toNat * nelem.toNat⟩] (fun _ ↦ False) h h₂) :
      Layout sz ((List.range i).map (elementAt start sz) ++ [elementAt start sz i]) h₂ := by
    have hr : (List.range i).map (elementAt start sz) ++ [elementAt start sz i] =
        (List.range (i + 1)).map (elementAt start sz) := by simp [List.range_succ]
    rw [hr]
    exact (layout_of_grows_array hle hp H₂).subset ((List.range_sublist.mpr hi).map _)
  apply (Yields.foldlM_range (P := fun i p ↦ p.1 = elementAt start sz i ∧
    ListAt p.2.bytes start ((List.range i).map (elementAt start sz)) p.1 ∧
      Grows [⟨start.toNat, sz.toNat * nelem.toNat⟩] (fun _ ↦ False) h p.2) _ ?_ ?_).bind
  · rintro ⟨_, h₂⟩ ⟨rfl, hl, H₂⟩
    have hi : nelem.toNat - 1 < nelem.toNat := by omega
    apply (link_spec 0 hsz (hlayout _ hi H₂) (elementAt_ne_zero hle hp hs0 hi) hl).bind
    rintro h₃ ⟨hl₃, -, -, H₃⟩
    refine ⟨hle, ?_, step_link_elementAt hle hp H₂ hi (k := 0) hsz H₃⟩
    have hr : List.range nelem.toNat = List.range (nelem.toNat - 1) ++ [nelem.toNat - 1] := by
      rw [← List.range_succ, Nat.succ_eq_add_one, Nat.sub_add_cancel h0]
    rw [hr, List.map_append]
    exact hl₃
  · exact ⟨(elementAt_zero start sz).symm, rfl, H₁⟩
  · rintro i hi ⟨_, h₂⟩ ⟨rfl, hl, H₂⟩
    have hi : i < nelem.toNat := by omega
    apply (link_spec _ hsz (hlayout i hi H₂) (elementAt_ne_zero hle hp hs0 hi) hl).bind
    rintro h₃ ⟨hl₃, hc₃, hn₃, H₃⟩
    apply (loadLink_spec hc₃).imp
    rintro _ rfl
    have he : h₃.bytes.load (elementAt start sz i).toNat = elementAt start sz (i + 1) := by
      rw [hn₃, elementAt_succ]
    have H₃' := step_link_elementAt hle hp H₂ hi (k := 0) hsz H₃
    refine ⟨he, ?_, H₃'.step (grows_loadWord h₃ _) fun _ hw ↦ hw.elim⟩
    show ListAt h₃.bytes start _ (h₃.bytes.load (elementAt start sz i).toNat)
    rw [hn₃, List.range_succ, List.map_append]
    exact hl₃

end

/-! ### Traversal and deallocation -/

section

variable {A} {E : Stop → Prop} {g : GOptions} {sz : UInt64}

/-- The visits are those of the traversal. -/
theorem map_visitList (g : GOptions) (sz : UInt64) (fuel counter : Nat) (list : UInt64)
    (h : Heap) : (visitList g sz fuel counter list h).map Prod.snd =
      traverseList g sz fuel counter list h := by
  induction fuel generalizing counter list h with
  | zero => rfl
  | succ fuel ih =>
    rw [visitList, traverseList, ← map_visitElement]
    split
    · rfl
    cases visitElement g h counter list sz sizeofLObject with
    | error e => rfl
    | ok p =>
      simp only [Except.map, bind, Except.bind]
      cases int (counter + 1) with
      | error e => rfl
      | ok n =>
        cases loadLink p.2 list.toNat with
        | error e => rfl
        | ok r =>
          simp only [← ih]
          cases visitList g sz fuel n r.1 r.2 <;> rfl

/-- A traversal of the rest `qs` of a list visits its objects in order and writes payloads of
the chosen ones only, as long as the counter fits an `int`. -/
theorem visitList_spec (hw : -100 ≤ g.writeAccessRatio.toInt) (hsz : 8 ≤ sz.toNat)
    (hsz' : sz.toNat < 2 ^ 31) {objs qs : List UInt64} (hqs : ∀ q ∈ qs, q ∈ objs)
    {fuel counter : Nat} {list : UInt64} {h : Heap} (L : Layout sz objs h)
    (hl : ListAt h.bytes list qs 0) (hc : counter < 2 ^ 31)
    (hE : 2 ^ 31 ≤ counter + qs.length → E .undefined) (hf : qs.length < fuel) :
    Yields E (visitList g sz fuel counter list h) fun (vs, h') ↦
      counter + qs.length < 2 ^ 31 ∧
      vs = (qs.zipIdx counter).map (fun (q, i) ↦ ⟨q, writesTo g i⟩) ∧
        Grows [] (InWritten sz sizeofLObject vs) h h' := by
  induction qs generalizing fuel counter list h with
  | nil =>
    obtain ⟨fuel, rfl⟩ := Nat.exists_eq_succ_of_ne_zero (Nat.ne_zero_of_lt hf)
    rw [visitList, if_pos (show list = 0 from hl)]
    exact ⟨hc, rfl, .refl _ h⟩
  | cons q qs ih =>
    obtain ⟨fuel, rfl⟩ := Nat.exists_eq_succ_of_ne_zero (Nat.ne_zero_of_lt hf)
    obtain ⟨rfl, hq, hl⟩ := hl
    rw [List.length_cons] at hE hf
    have hqo := hqs list List.mem_cons_self
    have hqs' : ∀ q ∈ qs, q ∈ objs := fun q hq ↦ hqs q (List.mem_cons_of_mem _ hq)
    rw [visitList, if_neg hq]
    apply (visitElement_spec hw counter (L.covers list hqo) hsz hsz').bind
    intro (v, h₁) ⟨hv, H₁⟩
    have hvo : ∀ v' ∈ [v], v'.object ∈ objs := by
      rw [List.forall_mem_singleton, hv]
      exact hqo
    have hs := L.sameHeaders_visits hvo H₁ hsz
    have hint : Yields E (int (counter + 1)) fun n ↦ n = counter + 1 ∧ counter + 1 < 2 ^ 31 := by
      unfold int
      split
      · next hlt => exact ⟨rfl, hlt⟩
      · next hlt => exact hE (by omega)
    apply hint.bind
    intro _ ⟨hn, hlt⟩
    subst hn
    apply (loadLink_spec ((L.grows H₁).covers_link hqo (k := 0) hsz)).bind
    intro _ hr
    subst hr
    have hl₁ : ListAt h₁.bytes (h₁.bytes.load list.toNat) qs 0 := by
      rw [show h₁.bytes.load list.toNat = h.bytes.load list.toNat from
        hs.load (k := 0) hqo le_rfl]
      exact hl.congr le_rfl (hs.subset hqs')
    have H₂ := H₁.step (grows_loadWord h₁ list.toNat) fun _ hw ↦ hw.elim
    apply (ih hqs' (L.grows H₂) hl₁ hlt (fun he ↦ hE (by omega)) (by omega)).bind
    intro (vs, h₃) ⟨hb, hvs, H₃⟩
    refine ⟨by rw [List.length_cons]; omega, ?_, ?_⟩
    · rw [List.zipIdx_cons, List.map_cons, ← hvs, hv]
    · apply (H₂.mono fun x hx ↦ hx.mono (List.cons_subset_cons v (List.nil_subset vs))).step H₃
      intro x hx
      exact .inl (hx.mono (List.subset_cons_self v vs))

/-- Every object of a list is freed once, after its link is read. -/
theorem deallocateList_spec (hsz : 8 ≤ sz.toNat) {qs : List UInt64} {rest : List Region}
    {fuel : Nat} {l : UInt64} {h : Heap} (hl : ListAt h.bytes l qs 0)
    (hp : h.live.Perm (qs.map (object sz) ++ rest)) (hf : qs.length < fuel) :
    Yields E (deallocateList A fuel l h) (Shrinks (qs.map (object sz)) h) := by
  induction qs generalizing fuel l h with
  | nil =>
    obtain ⟨fuel, rfl⟩ := Nat.exists_eq_succ_of_ne_zero (Nat.ne_zero_of_lt hf)
    rw [deallocateList, if_pos (show l = 0 from hl)]
    exact .refl h
  | cons q qs ih =>
    obtain ⟨fuel, rfl⟩ := Nat.exists_eq_succ_of_ne_zero (Nat.ne_zero_of_lt hf)
    obtain ⟨rfl, hq, hl⟩ := hl
    rw [List.length_cons] at hf
    have hlive : object sz l ∈ h.live := hp.mem_iff.mpr List.mem_cons_self
    have hc : h.Covers ⟨l.toNat, 8⟩ := ⟨_, hlive, le_rfl, Nat.add_le_add_left hsz _⟩
    rw [deallocateList, if_neg hq]
    apply (loadLink_spec hc).bind
    rintro _ rfl
    have H₁ := shrinks_loadWord hc
    apply (deallocate_spec A (h := (h.loadWord l.toNat).2) hlive).bind
    intro h₂ H₂
    have hp₂ : h₂.live.Perm (qs.map (object sz) ++ rest) :=
      (H₂.live.symm.trans hp).cons_inv
    have hs : SameHeaders 8 qs h.bytes h₂.bytes := by
      apply sameHeaders_of_shrinks (H₁.trans H₂) _ hsz
      intro o ho
      exact hp₂.mem_iff.mpr (List.mem_append_left _ (List.mem_map_of_mem ho))
    apply (ih (hl.congr le_rfl hs) hp₂ (by omega)).imp
    intro h₃ H₃
    exact (H₁.trans H₂).trans H₃

end
end Acdc.Objects
