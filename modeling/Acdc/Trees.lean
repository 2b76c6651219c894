import Acdc.Base.Balanced
import Acdc.Objects

/-!
# Tree-based collections

Builders, traversals and deallocators of the types `BTREE` and `OPTIMAL_BTREE`:
`src/lifetime-size-classes.c:350–462`. A builder returns the `start` of its descriptor.
Recursions along links are bounded in depth.
-/

namespace Acdc.Objects

open Fallible Heap Memory BinaryTree ArrayTree

variable (A : Allocator)

/-- `src/lifetime-size-classes.c:350–353`. -/
def deallocateOptimalBtree (h : Heap) (start : UInt64) : Except Stop Heap :=
  deallocate A h start

/-- The link to a child of an array element; `src/lifetime-size-classes.c:374–383`. -/
def childLink (start sz nelem : UInt64) (child : Nat) : UInt64 :=
  if nelem - 1 < UInt64.ofNat child then 0 else elementAt start sz child

/-- `src/lifetime-size-classes.c:355–387`. -/
def allocateOptimalBtree (h : Heap) (sz nelem : UInt64) : Except Stop (UInt64 × Heap) := do
  sizeCheck .optimalBtree sz
  let (start, h) ← allocate A h (sz * nelem)
  let n ← int nelem.toNat
  let h ← (List.range n).foldlM (fun h i ↦ do
    let node := (elementAt start sz i).toNat
    let leftChild ← int (2 * i + 1)
    let rightChild ← int (2 * i + 2)
    let h ← storeLink h node (childLink start sz nelem leftChild)
    storeLink h (node + 8) (childLink start sz nelem rightChild)) h
  return (start, h)

/-- `src/lifetime-size-classes.c:389–403`. -/
def buildTreeRecursion (sz : UInt64) (nelem : Nat) (h : Heap) : Except Stop (UInt64 × Heap) :=
  if nelem = 0 then return (0, h)
  else do
    let (t, h) ← allocate A h sz
    let half := (nelem - 1) / 2
    let _ ← int half
    let (left, h) ← buildTreeRecursion sz half h
    let h ← storeLink h t.toNat left
    let (right, h) ← buildTreeRecursion sz (nelem - 1 - half) h
    let h ← storeLink h (t.toNat + 8) right
    return (t, h)
termination_by nelem

/-- `src/lifetime-size-classes.c:405–418`. -/
def allocateBtree (h : Heap) (sz nelem : UInt64) : Except Stop (UInt64 × Heap) := do
  sizeCheck .btree sz
  buildTreeRecursion A sz nelem.toNat h

/-- `src/lifetime-size-classes.c:420–425`. -/
def deallocateSubtreeRecursion : Nat → UInt64 → Heap → Except Stop Heap
  | 0, _, _ => .error .outOfFuel
  | fuel + 1, t, h =>
    if t = 0 then return h
    else do
      let (left, h) ← loadLink h t.toNat
      let h ← deallocateSubtreeRecursion fuel left h
      let (right, h) ← loadLink h (t.toNat + 8)
      let h ← deallocateSubtreeRecursion fuel right h
      deallocate A h t

/-- `src/lifetime-size-classes.c:427–430`. -/
def deallocateBtree (fuel : Nat) (start : UInt64) (h : Heap) : Except Stop Heap :=
  deallocateSubtreeRecursion A fuel start h

/-- The writes to a node, then the right and the left subtree. The access counter is a local
of each call. -/
def btreeRecursion (g : GOptions) (sz : UInt64) : Nat → UInt64 → Heap → Except Stop Heap
  | 0, _, _ => .error .outOfFuel
  | fuel + 1, t, h =>
    if t = 0 then return h
    else do
      let h ← writeElement g h 0 t sz sizeofBTObject
      let (right, h) ← loadLink h (t.toNat + 8)
      let h ← btreeRecursion g sz fuel right h
      let (left, h) ← loadLink h t.toNat
      btreeRecursion g sz fuel left h

/-- The recursion with its visits, in order. -/
def visitBtree (g : GOptions) (sz : UInt64) :
    Nat → UInt64 → Heap → Except Stop (List Visit × Heap)
  | 0, _, _ => .error .outOfFuel
  | fuel + 1, t, h =>
    if t = 0 then return ([], h)
    else do
      let (v, h) ← visitElement g h 0 t sz sizeofBTObject
      let (right, h) ← loadLink h (t.toNat + 8)
      let (rs, h) ← visitBtree g sz fuel right h
      let (left, h) ← loadLink h t.toNat
      let (ls, h) ← visitBtree g sz fuel left h
      return (v :: (rs ++ ls), h)

/-- `src/lifetime-size-classes.c:432–446`. -/
def traverseBtreeInversePreorder (g : GOptions) (sz : UInt64) (fuel : Nat) (start : UInt64)
    (h : Heap) : Except Stop Heap := btreeRecursion g sz fuel start h

/-- `src/lifetime-size-classes.c:448–462`; the same order as the inverse one. -/
def traverseBtreePreorder (g : GOptions) (sz : UInt64) (fuel : Nat) (start : UInt64)
    (h : Heap) : Except Stop Heap := btreeRecursion g sz fuel start h

/-! ### Builders -/

section

variable {A} {E : Stop → Prop} {sz : UInt64}

/-- A store to a link of one object keeps the headers of the others. -/
theorem sameHeaders_of_store {h h' : Heap} {q : UInt64} {objs : List UInt64}
    (hsz : 16 ≤ sz.toNat) (L : Layout sz (q :: objs) h) {k : Nat} (hk : k + 8 ≤ 16)
    (H : Grows [] (Region.Has ⟨q.toNat + k, 8⟩) h h') : SameHeaders 16 objs h.bytes h'.bytes := by
  apply (L.subset (List.sublist_cons_self q objs)).sameHeaders H hsz
  intro o ho x hx hx' hw
  have hap := (List.pairwise_cons.mp L.apart).1 o ho
  simp only [Region.Has] at hw
  exact hap.not_has (object_has.mpr ⟨by omega, by omega⟩) (object_has.mpr ⟨hx, by omega⟩)

/-- `build_tree_recursion` allocates the nodes of a balanced tree one by one, each before its
subtrees. -/
theorem buildTreeRecursion_spec (hE : E .outOfMemory) (hsz : 16 ≤ sz.toNat) (nelem : Nat)
    (hn : nelem < 2 ^ 32) (h : Heap) :
    Yields E (buildTreeRecursion A sz nelem h) fun (p, h') ↦
      ∃ t : BinaryTree UInt64, t.numNodes = nelem ∧ t.SizeBalanced ∧ TreeAt h'.bytes p t ∧
        Builds (t.preorder.map (object sz)) h h' := by
  induction nelem using Nat.strongRecOn generalizing h with
  | ind nelem ih =>
  have hp : 0 < sz := UInt64.lt_iff_toNat_lt.mpr (by simpa using by omega)
  rw [buildTreeRecursion]
  split
  · next h0 => exact ⟨.nil, h0.symm, trivial, rfl, .refl h⟩
  next h0 =>
  apply (allocate_spec hE A h hp).bind
  rintro ⟨q, h₁⟩ ⟨hv, H₁⟩
  apply (int_spec (n := (nelem - 1) / 2) (by omega)).bind
  intro _ _
  apply (ih ((nelem - 1) / 2) (by omega) (by omega) h₁).bind
  rintro ⟨left, h₂⟩ ⟨l, hln, hlb, hl, H₂⟩
  have H₁₂ : Builds ((q :: l.preorder).map (object sz)) h h₂ := H₁.trans H₂
  have L₂ := layout_of_grows H₁₂.grows
  apply (storeLink_spec (L₂.covers_link List.mem_cons_self (k := 0) (by omega))).bind
  rintro _ rfl
  have H₃ := grows_storeWord h₂ q.toNat left
  have hl₃ := hl.congr le_rfl (sameHeaders_of_store hsz L₂ (k := 0) (by omega) H₃)
  have hq₃ : (h₂.storeWord q.toNat left).bytes.load q.toNat = left := load_store _ _ _
  have H₁₃ := step_link H₁₂ List.mem_cons_self (k := 0) (by omega) H₃
  apply (ih (nelem - 1 - (nelem - 1) / 2) (by omega) (by omega) _).bind
  rintro ⟨right, h₄⟩ ⟨r, hrn, hrb, hr, H₄⟩
  have L₃ := layout_of_grows H₁₃.grows
  have hs₄ : SameHeaders 16 (q :: l.preorder) (h₂.storeWord q.toNat left).bytes h₄.bytes :=
    L₃.sameHeaders H₄.grows hsz fun _ _ _ _ _ hw ↦ hw
  have hl₄ := hl₃.congr le_rfl (hs₄.subset fun _ ↦ List.mem_cons_of_mem q)
  have hq₄ : h₄.bytes.load q.toNat = left :=
    (hs₄.load (k := 0) List.mem_cons_self (by omega)).trans hq₃
  have H₁₄ : Builds ((q :: (l.preorder ++ r.preorder)).map (object sz)) h h₄ := by
    have H := H₁₃.trans H₄
    rwa [← List.map_append] at H
  have L₄ := layout_of_grows H₁₄.grows
  apply (storeLink_spec (L₄.covers_link List.mem_cons_self (k := 8) (by omega))).bind
  rintro _ rfl
  have H₅ := grows_storeWord h₄ (q.toNat + 8) right
  have hs₅ := sameHeaders_of_store hsz L₄ (k := 8) (by omega) H₅
  refine ⟨.node q l r, ?_, ⟨?_, ?_, hlb, hrb⟩, ⟨rfl, ?_, ?_, ?_⟩, ?_⟩
  · rw [BinaryTree.numNodes, hln, hrn]
    omega
  · omega
  · omega
  · rintro rfl
    exact absurd hv.start_pos (lt_irrefl 0)
  · have hq₅ : (h₄.storeWord (q.toNat + 8) right).bytes.load q.toNat = left :=
      (load_store_of_disjoint (.inr le_rfl)).trans hq₄
    rw [hq₅]
    exact hl₄.congr le_rfl (hs₅.subset fun _ ↦ List.mem_append_left _)
  · have hq₅ : (h₄.storeWord (q.toNat + 8) right).bytes.load (q.toNat + 8) = right :=
      load_store _ _ _
    rw [hq₅]
    exact hr.congr le_rfl (hs₅.subset fun _ ↦ List.mem_append_right _)
  · exact step_link H₁₄ List.mem_cons_self (k := 8) (by omega) H₅

/-- The objects of `allocate_btree` are allocated one by one and linked to a tree. -/
theorem allocateBtree_spec (hE : E .outOfMemory) (h : Heap) {nelem : UInt64}
    (hsz : 16 ≤ sz.toNat) (hn : nelem.toNat < 2 ^ 32) :
    Yields E (allocateBtree A h sz nelem) fun (start, h') ↦
      ∃ t : BinaryTree UInt64, t.numNodes = nelem.toNat ∧ t.SizeBalanced ∧
        TreeAt h'.bytes start t ∧ Builds (t.preorder.map (object sz)) h h' := by
  have hc : sizeCheck .btree sz = .ok () := sizeCheck_of_hasBuilder rfl hsz
  unfold allocateBtree
  rw [hc]
  exact buildTreeRecursion_spec hE hsz nelem.toNat hn h

/-- A child link is that of the tree in the array. -/
theorem childLink_eq (start : UInt64) {nelem : UInt64} {c : Nat} (h0 : 0 < nelem.toNat)
    (hc : c < 2 ^ 31) :
    childLink start sz nelem c = if c < nelem.toNat then elementAt start sz c else 0 := by
  have h1 : (nelem - 1).toNat = nelem.toNat - 1 := UInt64.toNat_sub_of_le _ _ h0
  have hcn : (UInt64.ofNat c).toNat = c := by
    rw [UInt64.toNat_ofNat', Nat.mod_eq_of_lt (by omega)]
  have hiff : nelem - 1 < UInt64.ofNat c ↔ ¬ c < nelem.toNat := by
    rw [UInt64.lt_iff_toNat_lt, h1, hcn]
    omega
  rw [childLink, if_congr hiff rfl rfl, ite_not]

/-- The two stores to an element set its links and keep those of the elements before it. -/
theorem linkChildren_spec {start : UInt64} {n i : Nat} {h h₂ : Heap}
    (hle : start.toNat + sz.toNat * n ≤ 2 ^ 64) (hsz : 16 ≤ sz.toNat)
    (H : Grows [⟨start.toNat, sz.toNat * n⟩] (fun _ ↦ False) h h₂) (hi : i < n)
    (left right : UInt64) :
    Yields E (do
      let h ← storeLink h₂ (elementAt start sz i).toNat left
      storeLink h ((elementAt start sz i).toNat + 8) right) fun h₃ ↦
        Grows [⟨start.toNat, sz.toNat * n⟩] (fun _ ↦ False) h h₃ ∧
        h₃.bytes.load (elementAt start sz i).toNat = left ∧
        h₃.bytes.load ((elementAt start sz i).toNat + 8) = right ∧ ∀ j < i,
          h₃.bytes.load (elementAt start sz j).toNat =
              h₂.bytes.load (elementAt start sz j).toNat ∧
            h₃.bytes.load ((elementAt start sz j).toNat + 8) =
              h₂.bytes.load ((elementAt start sz j).toNat + 8) := by
  have hp : 0 < sz.toNat := by omega
  have h8 : 0 + 8 ≤ sz.toNat := by omega
  apply (storeLink_spec (covers_link_elementAt hle hp H hi h8)).bind
  rintro _ rfl
  have H₁ := step_link_elementAt hle hp H hi h8 (grows_storeWord h₂ _ left)
  apply (storeLink_spec (covers_link_elementAt hle hp H₁ hi hsz)).imp
  rintro _ rfl
  refine ⟨step_link_elementAt hle hp H₁ hi hsz (grows_storeWord _ _ _),
    (load_store_of_disjoint (.inr le_rfl)).trans (load_store _ _ _), load_store _ _ _, ?_⟩
  intro j hji
  have hap : (elementAt start sz j).toNat + 16 ≤ (elementAt start sz i).toNat := by
    have hm : sz.toNat * (j + 1) ≤ sz.toNat * i := Nat.mul_le_mul_left _ hji
    rw [Nat.mul_succ] at hm
    rw [toNat_elementAt hle hp hi, toNat_elementAt hle hp (hji.trans hi)]
    omega
  constructor
  · exact (load_store_of_disjoint (by omega)).trans (load_store_of_disjoint (by omega))
  · exact (load_store_of_disjoint (by omega)).trans (load_store_of_disjoint (by omega))

/-- The objects of `allocate_optimal_btree` are the elements of one array, linked to a tree. -/
theorem allocateOptimalBtree_spec (hE : E .outOfMemory) (h : Heap) {nelem : UInt64}
    (hsz : 16 ≤ sz.toNat) (hm : sz.toNat * nelem.toNat < 2 ^ 64) (h0 : 0 < nelem.toNat)
    (hn : 2 * nelem.toNat < 2 ^ 31) :
    Yields E (allocateOptimalBtree A h sz nelem) fun (start, h') ↦
      0 < start.toNat ∧ start.toNat + sz.toNat * nelem.toNat ≤ 2 ^ 64 ∧
      (∀ j < nelem.toNat,
        h'.bytes.load (elementAt start sz j).toNat =
            (if 2 * j + 1 < nelem.toNat then elementAt start sz (2 * j + 1) else 0) ∧
          h'.bytes.load ((elementAt start sz j).toNat + 8) =
            (if 2 * j + 2 < nelem.toNat then elementAt start sz (2 * j + 2) else 0)) ∧
      TreeAt h'.bytes start ((arrayTree nelem.toNat 0).map (elementAt start sz)) ∧
        Grows [⟨start.toNat, sz.toNat * nelem.toNat⟩] (fun _ ↦ False) h h' := by
  have hp : 0 < sz.toNat := by omega
  have hc : sizeCheck .optimalBtree sz = .ok () := sizeCheck_of_hasBuilder rfl hsz
  unfold allocateOptimalBtree
  rw [hc]
  apply (allocate_array_spec A hm hE h hp h0).bind
  rintro ⟨start, h₁⟩ ⟨hs0, hle, H₁⟩
  apply (int_spec (by omega)).bind
  rintro _ rfl
  -- the links of the elements below `i` are set
  apply (Yields.foldlM_range (P := fun i h₂ ↦
    Grows [⟨start.toNat, sz.toNat * nelem.toNat⟩] (fun _ ↦ False) h h₂ ∧ ∀ j < i,
      h₂.bytes.load (elementAt start sz j).toNat = childLink start sz nelem (2 * j + 1) ∧
      h₂.bytes.load ((elementAt start sz j).toNat + 8) = childLink start sz nelem (2 * j + 2))
    _ ?_ ?_).bind
  · rintro h₂ ⟨H₂, hl⟩
    have hleft := fun i hi ↦ (hl i hi).1.trans (childLink_eq start h0 (by omega))
    have hright := fun i hi ↦ (hl i hi).2.trans (childLink_eq start h0 (by omega))
    have ht := treeAt_arrayTree (m := h₂.bytes) (f := elementAt start sz)
      (fun i hi ↦ elementAt_ne_zero hle hp hs0 hi) hleft hright 0
    rw [if_pos h0, elementAt_zero] at ht
    exact ⟨hs0, hle, fun i hi ↦ ⟨hleft i hi, hright i hi⟩, ht, H₂⟩
  · exact ⟨H₁, fun j hj ↦ absurd hj (Nat.not_lt_zero j)⟩
  · rintro i hi h₂ ⟨H₂, hl⟩
    apply (int_spec (n := 2 * i + 1) (by omega)).bind
    rintro _ rfl
    apply (int_spec (n := 2 * i + 2) (by omega)).bind
    rintro _ rfl
    apply (linkChildren_spec hle hsz H₂ hi _ _).imp
    rintro h₃ ⟨H₃, hleft, hright, hbefore⟩
    refine ⟨H₃, ?_⟩
    intro j hj
    obtain rfl | hji := Nat.eq_or_lt_of_le (Nat.le_of_lt_succ hj)
    · exact ⟨hleft, hright⟩
    · obtain ⟨hbl, hbr⟩ := hbefore j hji
      exact ⟨hbl.trans (hl j hji).1, hbr.trans (hl j hji).2⟩

end

/-! ### Traversal and deallocation -/

section

variable {A} {E : Stop → Prop} {g : GOptions} {sz : UInt64}

/-- The visits are those of the traversal. -/
theorem map_visitBtree (g : GOptions) (sz : UInt64) (fuel : Nat) (p : UInt64) (h : Heap) :
    (visitBtree g sz fuel p h).map Prod.snd = btreeRecursion g sz fuel p h := by
  induction fuel generalizing p h with
  | zero => rfl
  | succ fuel ih =>
    rw [visitBtree, btreeRecursion, ← map_visitElement]
    split
    · rfl
    cases visitElement g h 0 p sz sizeofBTObject with
    | error e => rfl
    | ok v =>
      simp only [Except.map, bind, Except.bind]
      cases loadLink v.2 (p.toNat + 8) with
      | error e => rfl
      | ok right =>
        simp only [← ih]
        cases visitBtree g sz fuel right.1 right.2 with
        | error e => rfl
        | ok rs =>
          simp only [Except.map]
          cases loadLink rs.2 p.toNat with
          | error e => rfl
          | ok left =>
            simp only
            cases visitBtree g sz fuel left.1 left.2 <;> rfl

/-- A traversal of a subtree visits its nodes in inverse preorder and writes their payloads
only, if the bound on its depth exceeds the height. -/
theorem visitBtree_spec (hw : -100 ≤ g.writeAccessRatio.toInt) (hsz : 16 ≤ sz.toNat)
    (hsz' : sz.toNat < 2 ^ 31) {objs : List UInt64} {t : BinaryTree UInt64}
    (ht : ∀ q ∈ t.preorder, q ∈ objs) {fuel : Nat} {p : UInt64} {h : Heap} (L : Layout sz objs h)
    (hl : TreeAt h.bytes p t) (hE : fuel ≤ t.height → E .outOfFuel) :
    Yields E (visitBtree g sz fuel p h) fun (vs, h') ↦ t.height < fuel ∧
      vs = t.inversePreorder.map (fun q ↦ ⟨q, writesTo g 0⟩) ∧
        Grows [] (InWritten sz sizeofBTObject vs) h h' := by
  induction t generalizing fuel p h with
  | nil =>
    cases fuel with
    | zero => exact hE le_rfl
    | succ fuel =>
      rw [visitBtree, if_pos (show p = 0 from hl)]
      exact ⟨Nat.succ_pos fuel, rfl, .refl _ h⟩
  | node q l r ihl ihr =>
    cases fuel with
    | zero => exact hE (Nat.zero_le _)
    | succ fuel =>
    obtain ⟨rfl, hq, hl, hr⟩ := hl
    rw [BinaryTree.height] at hE
    have hpo := ht p List.mem_cons_self
    have hlo : ∀ q ∈ l.preorder, q ∈ objs := fun q hq ↦
      ht q (List.mem_cons_of_mem p (List.mem_append_left _ hq))
    have hro : ∀ q ∈ r.preorder, q ∈ objs := fun q hq ↦
      ht q (List.mem_cons_of_mem p (List.mem_append_right _ hq))
    rw [visitBtree, if_neg hq]
    apply (visitElement_spec hw 0 (L.covers p hpo) hsz hsz').bind
    rintro ⟨v, h₁⟩ ⟨hv, H₁⟩
    have hvo : v.object ∈ objs := hv ▸ hpo
    have hs₁ := L.sameHeaders_visits (List.forall_mem_singleton.mpr hvo) H₁ hsz
    apply (loadLink_spec ((L.grows H₁).covers_link hpo (k := 8) (by omega))).bind
    rintro _ rfl
    have H₂ := H₁.step (grows_loadWord h₁ (p.toNat + 8)) fun _ hw ↦ hw.elim
    have hr₂ : TreeAt h₁.bytes (h₁.bytes.load (p.toNat + 8)) r := by
      rw [hs₁.load (k := 8) hpo le_rfl]
      exact hr.congr le_rfl (hs₁.subset hro)
    apply (ihr hro (L.grows H₂) hr₂ fun he ↦ hE (by omega)).bind
    rintro ⟨rs, h₃⟩ ⟨hrf, hrs, H₃⟩
    have hrv : ∀ v ∈ rs, v.object ∈ objs := by
      intro v hv
      rw [hrs] at hv
      obtain ⟨q, hq, rfl⟩ := List.mem_map.mp hv
      exact hro q (r.inversePreorder_perm.mem_iff.mp hq)
    have H₄ : Grows [] (InWritten sz sizeofBTObject (v :: rs)) h h₃ :=
      (H₂.mono fun x hx ↦ hx.mono (List.cons_subset_cons v (List.nil_subset rs))).step H₃
        fun x hx ↦ .inl (hx.mono (List.subset_cons_self v rs))
    have hs₄ : SameHeaders 16 objs h.bytes h₃.bytes :=
      L.sameHeaders_visits (List.forall_mem_cons.mpr ⟨hvo, hrv⟩) H₄ hsz
    apply (loadLink_spec ((L.grows H₄).covers_link hpo (k := 0) (by omega))).bind
    rintro _ rfl
    have hl₄ : TreeAt h₃.bytes (h₃.bytes.load p.toNat) l := by
      rw [show h₃.bytes.load p.toNat = h.bytes.load p.toNat from
        hs₄.load (k := 0) hpo (by omega)]
      exact hl.congr le_rfl (hs₄.subset hlo)
    have H₅ := H₄.step (grows_loadWord h₃ p.toNat) fun _ hw ↦ hw.elim
    apply (ihl hlo (L.grows H₅) hl₄ fun he ↦ hE (by omega)).bind
    rintro ⟨ls, h₆⟩ ⟨hlf, hls, H₆⟩
    refine ⟨by rw [BinaryTree.height]; omega, ?_, ?_⟩
    · rw [inversePreorder, List.map_cons, List.map_append, ← hrs, ← hls, hv]
    · have hsub : v :: rs ⊆ v :: (rs ++ ls) :=
        List.cons_subset_cons v (List.subset_append_left rs ls)
      have hsub' : ls ⊆ v :: (rs ++ ls) :=
        fun _ hx ↦ List.mem_cons_of_mem v (List.mem_append_right rs hx)
      apply (H₅.mono fun x hx ↦ hx.mono hsub).step H₆
      intro x hx
      exact .inl (hx.mono hsub')

/-- Every node of a subtree is freed once, after both of its links are read, if the bound on
the depth exceeds the height. -/
theorem deallocateSubtreeRecursion_spec (hsz : 16 ≤ sz.toNat) {t : BinaryTree UInt64}
    {rest : List Region} {fuel : Nat} {p : UInt64} {h : Heap} (hl : TreeAt h.bytes p t)
    (hp : h.live.Perm (t.preorder.map (object sz) ++ rest))
    (hE : fuel ≤ t.height → E .outOfFuel) :
    Yields E (deallocateSubtreeRecursion A fuel p h) fun h' ↦
      t.height < fuel ∧ Shrinks (t.preorder.map (object sz)) h h' := by
  induction t generalizing rest fuel p h with
  | nil =>
    cases fuel with
    | zero => exact hE le_rfl
    | succ fuel =>
      rw [deallocateSubtreeRecursion, if_pos (show p = 0 from hl)]
      exact ⟨Nat.succ_pos fuel, .refl h⟩
  | node q l r ihl ihr =>
    cases fuel with
    | zero => exact hE (Nat.zero_le _)
    | succ fuel =>
    obtain ⟨rfl, hq, hl, hr⟩ := hl
    rw [BinaryTree.height] at hE
    have hlink {h' : Heap} (hlive : object sz p ∈ h'.live) (k : Nat) (hk : k + 8 ≤ 16) :
        h'.Covers ⟨p.toNat + k, 8⟩ := by
      refine ⟨_, hlive, ?_⟩
      simp only [Region.Within, object]
      omega
    have hp₀ : h.live.Perm (l.preorder.map (object sz) ++
        (object sz p :: (r.preorder.map (object sz) ++ rest))) := by
      rw [preorder, List.map_cons, List.map_append, List.cons_append, List.append_assoc] at hp
      exact hp.trans List.perm_middle.symm
    have hlive : object sz p ∈ h.live := hp.mem_iff.mpr List.mem_cons_self
    have hc₀ := hlink hlive 0 (by omega)
    rw [deallocateSubtreeRecursion, if_neg hq]
    apply (loadLink_spec hc₀).bind
    rintro _ rfl
    have H₁ := shrinks_loadWord hc₀
    apply (ihl (h := (h.loadWord p.toNat).2) hl hp₀ fun he ↦ hE (by omega)).bind
    rintro h₂ ⟨hlf, H₂⟩
    have H₂ := H₁.trans H₂
    have hp₂ : h₂.live.Perm (object sz p :: (r.preorder.map (object sz) ++ rest)) :=
      (List.perm_append_left_iff _).mp (H₂.live.symm.trans hp₀)
    have hlive₂ : object sz p ∈ h₂.live := hp₂.mem_iff.mpr List.mem_cons_self
    have hc₂ := hlink hlive₂ 8 le_rfl
    have hs₂ : SameHeaders 16 (p :: r.preorder) h.bytes h₂.bytes := by
      apply sameHeaders_of_shrinks H₂ _ hsz
      intro o ho
      have hm : object sz o ∈ (p :: r.preorder).map (object sz) ++ rest :=
        List.mem_append_left rest (List.mem_map_of_mem ho)
      exact hp₂.mem_iff.mpr hm
    have hr₂ : TreeAt h₂.bytes (h₂.bytes.load (p.toNat + 8)) r := by
      rw [hs₂.load (k := 8) List.mem_cons_self le_rfl]
      exact hr.congr le_rfl (hs₂.subset fun _ ↦ List.mem_cons_of_mem p)
    apply (loadLink_spec hc₂).bind
    rintro _ rfl
    have H₃ := H₂.trans (shrinks_loadWord hc₂)
    have hp₃ : h₂.live.Perm (r.preorder.map (object sz) ++ (object sz p :: rest)) :=
      hp₂.trans List.perm_middle.symm
    apply (ihr (h := (h₂.loadWord (p.toNat + 8)).2) hr₂ hp₃ fun he ↦ hE (by omega)).bind
    rintro h₄ ⟨hrf, H₄⟩
    have hp₄ : h₄.live.Perm (object sz p :: rest) :=
      (List.perm_append_left_iff _).mp (H₄.live.symm.trans hp₃)
    apply (deallocate_spec A (hp₄.mem_iff.mpr List.mem_cons_self)).imp
    intro h₅ H₅
    refine ⟨by rw [BinaryTree.height]; omega, ((H₃.trans H₄).trans H₅).perm ?_⟩
    simp only [preorder, List.map_cons, List.map_append, List.append_nil, List.nil_append]
    exact List.perm_append_singleton _ _

end
end Acdc.Objects
