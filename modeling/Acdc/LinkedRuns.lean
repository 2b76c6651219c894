import Acdc.Linking
import Mathlib.Data.List.GetD

/-!
# Runs with their lists

Every step of a thread does in memory what it does to the lists of `Acdc.Machine`.
-/

namespace Acdc

open DList

variable {σ : Type} {p : Bool} {g : GOptions} {R : Generator σ} {i : Nat} {s s' : Sys σ}
  {L L' : Links}

/-- Control point before a fetch. -/
def Pc.fetches : Pc → Bool
  | .sharing _ [] => true
  | _ => false

theorem Pc.fetches_iff {pc : Pc} : pc.fetches = true ↔ ∃ c, pc = .sharing c [] := by
  constructor
  · intro h
    unfold fetches at h
    split at h
    · next c => exact ⟨c, rfl⟩
    · cases h
  · rintro ⟨c, rfl⟩
    rfl

/-- A thread that fetches has no nodes in the local lifetime-classes that it fetches to. -/
def FetchesApart (g : GOptions) (i : Nat) (s : Sys σ) : Prop :=
  (s.threads i).pc.fetches = true →
    Apart g (s.threads i).mc.time ((s.threads i).mc.heapClass, s.pools i) (List.range g.life)

instance (g : GOptions) (i : Nat) (s : Sys σ) : Decidable (FetchesApart g i s) :=
  inferInstanceAs (Decidable (_ → _))

/-- Outside the removal loop a local lifetime-class is linked forwards. -/
theorem level_heapClass (hr : (s.threads i).pc.inRemoval = false) (k : Nat) :
    level p g s (.heapClass i k) = if p then .both else .forward := by
  simp [level, hr]

theorem level_heapClass_cases (hr : (s.threads i).pc.inRemoval = false) (k : Nat) :
    level p g s (.heapClass i k) = .forward ∨ level p g s (.heapClass i k) = .both := by
  rw [level_heapClass hr]
  cases p
  · exact .inl rfl
  · exact .inr rfl

private theorem account_cases (hpc : (s.threads i).pc = .accounting)
    (h : step g R i s = .ok s') :
    if g.timeQuantum ≤
        (s.threads i).timeCounter + (s.threads i).sz * (s.threads i).numObjects.toUInt64 then
      (s'.threads i).pc = .removing
    else (s'.threads i).pc = .looping := by
  unfold step at h
  rw [hpc] at h
  dsimp only [account] at h
  split at h <;>
  · next hq =>
    cases h
    simp [hq]

/-- The fetch stays inside the wheel. -/
theorem getIndex_lt (hw : g.HasWheel) (time : UInt32) {k : Nat}
    (hk : k ∈ List.range g.life) : heapClassGetIndex g time (UInt32.ofNat k) < g.wheelSize :=
  Nat.mod_lt _ (hw (Nat.zero_lt_of_lt (List.mem_range.mp hk)))

private theorem ChainedNodes.fetch (hw : g.HasWheel) (hInv : Inv g s)
    (hC : ChainedNodes p g s L.nodes) (hr : (s.threads i).pc.inRemoval = false)
    (hp : p = true → Apart g (s.threads i).mc.time ((s.threads i).mc.heapClass, s.pools i)
      (List.range g.life)) :
    ∃ L', L.getSharedLClasses g i (s.threads i).mc.time = .ok L' ∧
      L'.nodes.Holds (fetched (contents g s) i (getSharedLClasses g (s.threads i).mc.time
        (s.threads i).mc.heapClass (s.pools i))) (level p g s) ∧
      ∀ x, ∀ c ∈ fetched (contents g s) i (getSharedLClasses g (s.threads i).mc.time
        (s.threads i).mc.heapClass (s.pools i)) x, ∃ y, c ∈ contents g s y := by
  have hself := fetched_self (g := g) hr
  have hholds := hC.holds
  rw [← hself] at hholds
  have hidx : ∀ k ∈ List.range g.life,
      heapClassGetIndex g (s.threads i).mc.time (UInt32.ofNat k) <
        (s.threads i).mc.heapClass.length := by
    intro k hk
    rw [hInv.wheel]
    exact getIndex_lt hw _ hk
  have hpool : ∀ k ∈ List.range g.life, k < (s.pools i).length := by
    intro k hk
    rw [hInv.pool]
    exact List.mem_range.mp hk
  obtain ⟨m, hm, hfetch, hmem⟩ := holds_fetch (fun _ ↦ rfl) (level_heapClass hr) _ List.nodup_range
    hholds hpool hidx hp
  rw [hself] at hmem
  refine ⟨{ L with nodes := m }, ?_, hfetch, hmem⟩
  rw [Links.getSharedLClasses, hm]
  rfl

private theorem counter_eq {α : Type} (f : Thread σ → α)
    (hne : ∀ j, j ≠ i → s'.threads j = s.threads j)
    (hk : f (s'.threads i) = f (s.threads i)) (j : Nat) :
    f (s'.threads j) = f (s.threads j) := by
  by_cases hj : j = i
  · rw [hj, hk]
  · rw [hne j hj]

private theorem counter_update {α : Type} (f : Thread σ → α)
    (hne : ∀ j, j ≠ i → s'.threads j = s.threads j) {x : α} (hk : f (s'.threads i) = x) :
    (fun j ↦ f (s'.threads j)) = Function.update (fun j ↦ f (s.threads j)) i x := by
  funext j
  by_cases hj : j = i
  · rw [hj, hk, Function.update_self]
  · rw [hne j hj, Function.update_of_ne hj]

private theorem ChainedNodes.keep (hC : ChainedNodes p g s L.nodes)
    (hne : ∀ j, j ≠ i → s'.threads j = s.threads j)
    (hpools : s'.pools = s.pools)
    (hh : (s'.threads i).mc.heapClass = (s.threads i).mc.heapClass)
    (hn : (s'.threads i).mc.nodeCache = (s.threads i).mc.nodeCache)
    (hk : (s'.threads i).mc.nodeBufferCounter = (s.threads i).mc.nodeBufferCounter)
    (hr : (s.threads i).pc.inRemoval = false) (hr' : (s'.threads i).pc.inRemoval = false) :
    ChainedNodes p g s' L.nodes :=
  hC.same (contents_congr hpools hne hh hn hr hr')
    (counter_eq (fun th ↦ th.mc.nodeBufferCounter) hne hk)

/-- The nodes that remain while the thread holds one of them. -/
theorem remaining_of_held {th : Thread σ} (node : LSCNode)
    (h : th.pc = .deallocating node ∨ th.pc = .recycling node) :
    th.pc.inRemoval = true ∧ remaining g th = node.slot ::
      slots (th.mc.heapClass.getD (heapClassRemoveIndex g th.mc.time) []) := by
  unfold remaining
  obtain h | h := h <;>
  · rw [h]
    exact ⟨rfl, rfl⟩

private theorem ChainedNodes.unreference {node : LSCNode} {rest : LClass}
    (hC : ChainedNodes p g s L.nodes) (hne : ∀ j, j ≠ i → s'.threads j = s.threads j)
    (hpools : s'.pools = s.pools) (hpc : (s.threads i).pc = .removing)
    (hn : (s.threads i).mc.heapClass[heapClassRemoveIndex g (s.threads i).mc.time]? =
      some (node :: rest))
    (hh : (s'.threads i).mc.heapClass = (s.threads i).mc.heapClass.set
      (heapClassRemoveIndex g (s.threads i).mc.time) rest)
    (ht : (s'.threads i).mc.time = (s.threads i).mc.time)
    (hcache : (s'.threads i).mc.nodeCache = (s.threads i).mc.nodeCache)
    (hk : (s'.threads i).mc.nodeBufferCounter = (s.threads i).mc.nodeBufferCounter)
    (hpc' : (s'.threads i).pc = .deallocating node ∨ (s'.threads i).pc = .recycling node) :
    ChainedNodes p g s' L.nodes := by
  obtain ⟨hlt, hget⟩ := List.getElem?_eq_some_iff.mp hn
  obtain ⟨hr', hrem⟩ := remaining_of_held (g := g) node hpc'
  have hother (k : Nat) (hk : k ≠ heapClassRemoveIndex g (s.threads i).mc.time) :
      (s'.threads i).mc.heapClass[k]? = (s.threads i).mc.heapClass[k]? := by
    rw [hh, List.getElem?_set_ne hk.symm]
  have hsame : remaining g (s'.threads i) = remaining g (s.threads i) := by
    rw [hrem, hh, ht]
    simp [remaining, hpc, hlt, hget, slots]
  exact hC.same (contents_remove hne hpools hother ht hcache (by rw [hpc]; rfl) hr' hsame)
    (counter_eq (fun th ↦ th.mc.nodeBufferCounter) hne hk)

private theorem exists_linkStep_create (L : Links) (hpc : (s.threads i).pc = .looping) :
    ∃ L', linkStep g R i s L = .ok L' ∧ L'.nodes = L.nodes := by
  simp only [linkStep, hpc, Links.getLSClass, takeSlot]
  split <;> exact ⟨_, rfl, rfl⟩

/-- A step does in memory what it does to the lists of nodes. -/
theorem ChainedNodes.step (hw : g.HasWheel) (hInv : Inv g s) (hC : ChainedNodes p g s L.nodes)
    (h : step g R i s = .ok s') (hp : p = true → FetchesApart g i s) :
    ∃ L', linkStep g R i s L = .ok L' ∧ ChainedNodes p g s' L'.nodes := by
  have hm := step_move h
  have hne : ∀ j, j ≠ i → s'.threads j = s.threads j := fun _ ↦ hm.threads_of_ne
  cases hm with
  | arrive hpc | depart _ hpc | traverse _ _ _ hpc | nextLClass _ hpc | endAccess _ hpc =>
    refine ⟨L, by simp only [linkStep, hpc], hC.keep hne rfl ?_ ?_ ?_ ?_ ?_⟩ <;>
      simp [hpc, Pc.inRemoval]
  | select _ _ _ _ hpc hs =>
    refine ⟨L, by simp only [linkStep, hpc, hs], hC.keep hne rfl ?_ ?_ ?_ ?_ ?_⟩ <;>
      simp [hpc, Pc.inRemoval]
  | create _ _ _ _ _ _ hpc =>
    obtain ⟨L', hL', hnodes⟩ := exists_linkStep_create (g := g) (R := R) L hpc
    refine ⟨L', hL', ?_⟩
    rw [hnodes]
    apply hC.keep hne rfl <;> simp [hpc, Pc.inRemoval]
  | insert c node cache k rand hpc hs ht hl =>
    have hr : (s.threads i).pc.inRemoval = false := by rw [hpc]; rfl
    have hr' : (enterAccess g).inRemoval = false := inRemoval_enterAccess g
    obtain ⟨hc, hv⟩ := contents_insert (p := p) (g := g) hne node c cache rfl hl (by simp)
      (by simp) hr
      (by simpa using hr')
    obtain ⟨L', hL', hC'⟩ := hC.insert ht (level_heapClass_cases hr _) (by simp) hc hv
      (counter_update (fun th ↦ th.mc.nodeBufferCounter) hne (by simp)) L rfl
    exact ⟨L', by simp only [linkStep, hpc, hs, hL'], hC'⟩
  | share c node r pending cache k hpc ht hl =>
    have hr : (s.threads i).pc.inRemoval = false := by rw [hpc]; rfl
    obtain ⟨hc, hv⟩ := contents_share (p := p) (g := g) hne node c cache hl rfl (by simp)
      (by simp) hr
      (by simp [Pc.inRemoval])
    have hlevel (k : Nat) : level p g s (.shared r k) = .forward ∨
        level p g s (.shared r k) = .both := .inr rfl
    obtain ⟨L', hL', hC'⟩ := hC.insert ht (hlevel _) (by simp) hc hv
      (counter_update (fun th ↦ th.mc.nodeBufferCounter) hne (by simp)) L rfl
    exact ⟨L', by simp only [linkStep, hpc, hL'], hC'⟩
  | fetch c hpc =>
    have hr : (s.threads i).pc.inRemoval = false := by rw [hpc]; rfl
    obtain ⟨L', hL', hholds, hmem⟩ := hC.fetch hw hInv hr fun hpt ↦
      hp hpt (Pc.fetches_iff.mpr ⟨c, hpc⟩)
    refine ⟨L', by simp only [linkStep, hpc, hL'], ?_⟩
    obtain ⟨hc, hv⟩ := contents_fetch (p := p) (g := g)
      (q := getSharedLClasses g (s.threads i).mc.time (s.threads i).mc.heapClass (s.pools i))
      hr (inRemoval_enterAccess g)
    rw [← hc] at hmem hholds
    rw [← hv] at hholds
    exact hC.moved hholds (counter_eq (fun th ↦ th.mc.nodeBufferCounter) hne (by simp)) hmem
  | tick hpc =>
    have hr : (s.threads i).pc.inRemoval = false := by rw [hpc]; rfl
    have hq := account_cases hpc h
    simp only [Sys.put_threads, Function.update_self, reduceCtorEq, if_false_right, and_true]
      at hq
    refine ⟨L.startRemove i (heapClassRemoveIndex g ((s.threads i).mc.time + 1)),
      by simp only [linkStep, hpc, if_pos hq], ?_⟩
    obtain ⟨hc, hv⟩ := contents_tick (p := p) (g := g) hne rfl (by simp) (by simp) hr (by simp)
      (k := heapClassRemoveIndex g ((s.threads i).mc.time + 1)) (by simp)
    exact hC.startRemove (level_heapClass_cases hr _) (remaining_eq_nil hr) hc hv
      (counter_eq (fun th ↦ th.mc.nodeBufferCounter) hne (by simp))
  | resume _ hpc =>
    have hq := account_cases hpc h
    simp only [Sys.put_threads, Function.update_self, reduceCtorEq, if_true_right, imp_false]
      at hq
    refine ⟨L, by simp only [linkStep, hpc, if_neg hq], hC.keep hne rfl ?_ ?_ ?_ ?_ ?_⟩ <;>
      simp [hpc, Pc.inRemoval]
  | unreference node rest hpc hn =>
    have hr : (s.threads i).pc.inRemoval = true := by rw [hpc]; rfl
    have hiter : contents g s (.iterator i) = node.slot :: slots rest := by
      simp [contents, remaining, hpc, hn, slots]
    have hfirst := (hC.holds.at_list (.iterator i)).first (by simp [level, hr])
    rw [hiter, List.head?_cons] at hfirst
    refine ⟨L, by simp only [linkStep, hpc, Links.endRemove, hfirst], ?_⟩
    apply hC.unreference hne rfl hpc hn <;>
      simp only [Sys.emit_threads, Sys.put_threads, Function.update_self]
    split
    · exact .inl rfl
    · exact .inr rfl
  | endRemove pc hpc hn he =>
    have hr : (s.threads i).pc.inRemoval = true := by rw [hpc]; rfl
    have hr' : pc.inRemoval = false := by obtain rfl | rfl := he <;> rfl
    have hk : contents g s (.heapClass i (heapClassRemoveIndex g (s.threads i).mc.time)) = [] := by
      simp [contents, hr]
    have hi : contents g s (.iterator i) = [] := by simp [contents, remaining, hpc, hn, slots]
    refine ⟨L.endRemove i (heapClassRemoveIndex g (s.threads i).mc.time),
      by simp only [linkStep, hpc], ?_⟩
    obtain ⟨hc, hv⟩ := contents_endRemove (p := p) (g := g) hne rfl hpc (by simpa using hr')
      (by simp) (by simp) rfl hn
    exact hC.endRemove (by simp [level, hr]) hi hk hc hv
      (counter_eq (fun th ↦ th.mc.nodeBufferCounter) hne (by simp))
  | deallocate node hpc =>
    have hlink : ∃ L', linkStep g R i s L = .ok L' ∧ L'.nodes = L.nodes := by
      simp only [linkStep, hpc]
      split
      · exact ⟨_, rfl, rfl⟩
      · exact ⟨L, rfl, rfl⟩
    obtain ⟨L', hL', hnodes⟩ := hlink
    refine ⟨L', hL', ?_⟩
    rw [hnodes]
    apply hC.same (contents_remove hne rfl ?_ ?_ ?_ ?_ ?_ ?_)
      (counter_eq (fun th ↦ th.mc.nodeBufferCounter) hne (by simp))
    all_goals simp [hpc, Pc.inRemoval, remaining]
  | recycle node hpc =>
    obtain ⟨hc, hv⟩ := contents_recycle (p := p) (g := g) hne rfl hpc (by simp) (by simp) (by simp)
      (by simp)
    have hiter : contents g s (.iterator i) = node.slot :: slots ((s.threads i).mc.heapClass.getD
        (heapClassRemoveIndex g (s.threads i).mc.time) []) := by
      simp [contents, remaining, hpc]
    obtain ⟨L', hL', -, hC'⟩ := hC.giveBack hiter (by simp [level, hpc, Pc.inRemoval]) hc hv
      (counter_eq (fun th ↦ th.mc.nodeBufferCounter) hne (by simp))
    exact ⟨L', by simp only [linkStep, hpc, hL'], hC'⟩

/-! ### Class caches -/

private theorem notMem_classCache (hInv : Inv g s) (hs : Reachable g R s) {c : Slot}
    (ho : CarvedOnce s c) (hlive : c ∈ live s.log) (j : Nat) :
    c ∉ (s.threads j).mc.classCache := by
  intro hj
  by_cases hjt : j < g.threads
  · have hfree : c ∈ (ledger g s).freeObjects :=
      Multiset.mem_sum.mpr ⟨j, Finset.mem_range.mpr hjt, Multiset.mem_coe.mpr hj⟩
    have heq := hInv.counted.objects_eq c ho
    have hle := hInv.counted.objects_le c ho
    have hfree := Multiset.count_pos.mpr hfree
    have hlive : 0 < (ledger g s).live.count c := Multiset.count_pos.mpr hlive
    omega
  · rw [hs.threads_of_le (Nat.le_of_not_lt hjt)] at hj
    cases hj

private theorem index_lt_of_live (hInv : Inv g s) {c : Slot} (hlive : c ∈ live s.log) :
    c.index < (s.threads c.owner).mc.classBufferCounter := by
  have hlive : c ∈ (ledger g s).live := hlive
  have hobj : c ∈ ∑ j ∈ Finset.range g.threads,
      carved (classSlot j) (s.threads j).mc.classBufferCounter :=
    hInv.counted.carved c (by simp [RefCount.State.named, hlive])
  obtain ⟨j, -, hj⟩ := Multiset.mem_sum.mp hobj
  obtain ⟨k, hk, rfl⟩ := Multiset.mem_map.mp hj
  rw [classSlot_eq]
  exact Nat.lt_of_le_of_lt (Nat.mod_le ..) (Multiset.mem_range.mp hk)

/-- No step writes the descriptor of a slot that is in a class cache, where its links lie. -/
theorem Reachable.classes_of_mem_classCache (hw : g.HasWheel) (hs : Reachable g R s)
    (hi : i < g.threads) (h : Acdc.step g R i s = .ok s') (hA : SlotsApart s') {j : Nat}
    {c : Slot} (hc : c ∈ (s'.threads j).mc.classCache) : s'.classes c = s.classes c := by
  have hInv := hs.inv_of_hasWheel hw
  have hs' : Reachable g R s' := .step i hs hi h
  have hne {c' : Slot} (hlive : c' ∈ live s'.log) : c ≠ c' :=
    ne_of_mem_of_not_mem hc (notMem_classCache (hs'.inv_of_hasWheel hw) hs' (hA.once c') hlive j)
  have hm := step_move h
  have hA' := hA.of_move hm
  cases hm with
  | create => exact Function.update_of_ne (hne (Multiset.mem_cons_self _ _)) _ _
  | insert _ _ _ _ _ hpc | select _ _ _ _ hpc =>
    have hlive := (hInv.counted.of_created (hA'.once _) (mem_created_of_placing hi hpc)).1
    exact Function.update_of_ne (hne hlive) _ _
  | unreference node rest hpc hn =>
    have hbag : node ∈ Inventory.bag (s.threads i).mc.heapClass :=
      Inventory.mem_bag.mpr ⟨_, List.mem_of_getElem? hn, List.mem_cons_self⟩
    have htarget := mem_targets_of_refs (mem_refs_of_heapClass hi hbag)
    exact Function.update_of_ne (hne (hInv.counted.of_target (hA'.once _) htarget).1) _ _
  | _ => rfl

private theorem heapClassInsert_classes {counter : Nat} {target : NodeList}
    (hL : L.heapClassInsert i counter target = .ok L') : L'.classes = L.classes := by
  obtain ⟨⟨node, L₁⟩, hnode, hL⟩ := bind_eq_ok hL
  obtain ⟨⟨node', m⟩, -, hnode⟩ := bind_eq_ok hnode
  cases hnode
  cases hL
  rfl

private theorem linkStep_classes (hL : linkStep g R i s L = .ok L')
    (hn : (s.threads i).pc ≠ .looping) (hn' : ∀ node, (s.threads i).pc ≠ .deallocating node) :
    L'.classes = L.classes := by
  unfold linkStep at hL
  dsimp only at hL
  split at hL
  · next hpc => exact absurd hpc hn
  · split at hL
    · exact heapClassInsert_classes hL
    · cases hL
      rfl
  · exact heapClassInsert_classes hL
  · obtain ⟨m, -, hL⟩ := bind_eq_ok hL
    cases hL
    rfl
  · split at hL <;>
    · cases hL
      rfl
  · cases hL
    unfold Links.endRemove
    split <;> rfl
  · next node hpc => exact absurd hpc (hn' node)
  · unfold Links.giveBack at hL
    split at hL
    · cases hL
    · cases hL
      rfl
  · cases hL
    rfl

private theorem ChainedClasses.take {m : Store Nat Slot} {size k : Nat} {c : Slot}
    {cache : List Slot} (hC : ChainedClasses s m)
    (ht : Taken size (classSlot i) (s.threads i).mc.classCache
      (s.threads i).mc.classBufferCounter c cache k)
    (hk : k ≤ 2 ^ 26)
    (hcache : (fun j ↦ (s'.threads j).mc.classCache) =
      Function.update (fun j ↦ (s.threads j).mc.classCache) i cache)
    (hcounter : (fun j ↦ (s'.threads j).mc.classBufferCounter) =
      Function.update (fun j ↦ (s.threads j).mc.classBufferCounter) i k) :
    ∃ m', takeSlot m i (.ok (classSlot i (s.threads i).mc.classBufferCounter)) = .ok (c, m') ∧
      ChainedClasses s' m' := by
  have hfresh (hnil : (s.threads i).mc.classCache = []) (j : Nat) :
      classSlot i (s.threads i).mc.classBufferCounter ∉ (s.threads j).mc.classCache := by
    -- the buffer has not gone round, so the slot lies past those that have been taken
    intro hj
    have hlt := hC.carved j _ hj
    have hlen := ht.counter.2.2.1
    rw [hnil, List.length_nil] at hlen
    rw [classSlot_eq, Nat.mod_eq_of_lt (by omega)] at hlt
    exact Nat.lt_irrefl _ hlt
  obtain ⟨m', hm', hholds, -⟩ := takeSlot_spec i hC.holds rfl ht fun hnil ↦ ⟨rfl, hfresh hnil⟩
  obtain ⟨-, hmono⟩ := ht.index_lt (classSlot_index_le i _) (hC.carved i) rfl hcounter
  refine ⟨m', hm', ?_⟩
  constructor
  · rw [hcache]
    exact hholds
  · intro j c hj
    have hmem : c ∈ Function.update (fun j ↦ (s.threads j).mc.classCache) i cache j :=
      hcache ▸ hj
    apply Nat.lt_of_lt_of_le _ (hmono c.owner)
    obtain hj | hj := mem_of_update hmem
    · exact hC.carved i c (ht.sublist.subset hj)
    · exact hC.carved j c hj

private theorem ChainedClasses.give {m : Store Nat Slot} {c : Slot} (hC : ChainedClasses s m)
    (hnot : ∀ j, c ∉ (s.threads j).mc.classCache)
    (hlt : c.index < (s.threads c.owner).mc.classBufferCounter)
    (hcache : (fun j ↦ (s'.threads j).mc.classCache) =
      Function.update (fun j ↦ (s.threads j).mc.classCache) i (c :: (s.threads i).mc.classCache))
    (hcounter : ∀ j,
      (s'.threads j).mc.classBufferCounter = (s.threads j).mc.classBufferCounter) :
    ChainedClasses s' (m.insertBeginning i c) := by
  constructor
  · rw [hcache]
    exact hC.holds.insertBeginning rfl hnot
  · intro j x hj
    have hmem : x ∈ Function.update (fun j ↦ (s.threads j).mc.classCache) i
      (c :: (s.threads i).mc.classCache) j := hcache ▸ hj
    rw [hcounter]
    obtain hj | hj := mem_of_update hmem
    · obtain rfl | hj := List.mem_cons.mp hj
      · exact hlt
      · exact hC.carved i x hj
    · exact hC.carved j x hj

/-- A step does in memory what it does to the class caches. -/
theorem ChainedClasses.step (hw : g.HasWheel) (hs : Reachable g R s) (hi : i < g.threads)
    (hA : SlotsApart s') (hC : ChainedClasses s L.classes) (h : step g R i s = .ok s')
    (hL : linkStep g R i s L = .ok L') : ChainedClasses s' L'.classes := by
  have hm := step_move h
  have hInv := hs.inv_of_hasWheel hw
  have hne : ∀ j, j ≠ i → s'.threads j = s.threads j := fun _ ↦ hm.threads_of_ne
  have hsame (hc : (s'.threads i).mc.classCache = (s.threads i).mc.classCache)
      (hk : (s'.threads i).mc.classBufferCounter = (s.threads i).mc.classBufferCounter)
      (hn : L'.classes = L.classes) : ChainedClasses s' L'.classes := by
    have hcache := counter_eq (fun th ↦ th.mc.classCache) hne hc
    have hcounter := counter_eq (fun th ↦ th.mc.classBufferCounter) hne hk
    rw [hn]
    constructor
    · simp only [hcache]
      exact hC.holds
    · intro j c hj
      rw [hcounter]
      exact hC.carved j c (hcache j ▸ hj)
  cases hm with
  | create p₀ p rand c cache k hpc hr hp he hl hz hb ht =>
    have hk : k ≤ 2 ^ 26 := by simpa using hA i
    obtain ⟨m', hm', hC'⟩ := hC.take ht hk
      (counter_update (fun th ↦ th.mc.classCache) hne (by simp))
      (counter_update (fun th ↦ th.mc.classBufferCounter) hne (by simp))
    simp only [linkStep, hpc, Links.getLSClass, hm'] at hL
    cases hL
    exact hC'
  | deallocate node hpc =>
    have ho := (hA.of_move (step_move h)).once node.lsClass
    have hlive := (hInv.counted.of_dying ho (mem_dying_of_deallocating hi hpc)).1
    have hb := hInv.hasBuilder node.lsClass
    have hL' : L'.classes = L.classes.insertBeginning i node.lsClass := by
      simp only [linkStep, hpc, hb, if_true, Except.ok.injEq] at hL
      rw [← hL]
      rfl
    rw [hL']
    apply hC.give (notMem_classCache hInv hs ho hlive) (index_lt_of_live hInv hlive)
    · exact counter_update (fun th ↦ th.mc.classCache) hne (by simp [hb])
    · exact counter_eq (fun th ↦ th.mc.classBufferCounter) hne (by simp)
  | insert _ _ _ _ _ hpc | select _ _ _ _ hpc | share _ _ _ _ _ _ hpc | fetch _ hpc
  | arrive hpc | depart _ hpc | traverse _ _ _ hpc | nextLClass _ hpc | endAccess _ hpc
  | tick hpc | resume _ hpc | unreference _ _ hpc | endRemove _ hpc | recycle _ hpc =>
    apply hsame <;> simp [linkStep_classes hL, hpc]

/-! ### Runs -/

section Runs

variable {P Q : Nat → Sys σ → Prop}

theorem Linked.reachable (h : Linked g R P s L) : Reachable g R s := by
  induction h with
  | start L hd => exact .start hd
  | step i _ hi h _ _ ih => exact .step i ih hi h

theorem Linked.mono (hPQ : ∀ i s, P i s → Q i s) (h : Linked g R P s L) : Linked g R Q s L := by
  induction h with
  | start L hd hn hc => exact .start L hd hn hc
  | step i _ hi h hL hP ih => exact .step i ih hi h hL (hPQ _ _ hP)

private theorem chained_runAcdc (hn : ∀ k, L.nodes.ends k = ⟨none, none⟩)
    (hc : ∀ i, L.classes.ends i = ⟨none, none⟩) :
    ChainedNodes p g (runAcdc g R) L.nodes ∧ ChainedClasses (runAcdc g R) L.classes := by
  have hempty (k : NodeList) : contents g (runAcdc g R) k = [] := by
    cases k with
    | heapClass i k =>
      simp [contents, runAcdc, createMutatorContext, Pc.inRemoval, slots,
        List.getElem?_getD_replicate_default_eq]
    | shared r k => simp [contents, runAcdc, slots, List.getElem?_getD_replicate_default_eq]
    | nodeCache i => rfl
    | iterator i => rfl
  constructor
  · refine ⟨.empty hn hempty, fun k c hk ↦ ?_⟩
    rw [hempty] at hk
    cases hk
  · exact ⟨.empty hc fun _ ↦ rfl, fun _ _ h ↦ absurd h List.not_mem_nil⟩

/-- In every run the lists of nodes in memory hold what they should. -/
theorem Linked.chainedNodes (hw : g.HasWheel)
    (hP : p = true → ∀ i s, P i s → FetchesApart g i s) (h : Linked g R P s L) :
    ChainedNodes p g s L.nodes := by
  induction h with
  | start L _ hn hc => exact (chained_runAcdc hn hc).1
  | step i hs hi h hL hPs ih =>
    obtain ⟨L₁, hL₁, hC⟩ := ih.step hw (hs.reachable.inv_of_hasWheel hw) h fun hpt ↦
      hP hpt _ _ hPs
    obtain rfl := Except.ok.inj (hL₁.symm.trans hL)
    exact hC

/-- As long as no class slot is carved twice, the class caches in memory hold what they
should. -/
theorem Linked.chainedClasses (hw : g.HasWheel) (h : Linked g R P s L) (hA : SlotsApart s) :
    ChainedClasses s L.classes := by
  induction h with
  | start L _ hn hc => exact (chained_runAcdc (p := false) hn hc).2
  | step i hs hi h hL _ ih =>
    exact (ih (hA.of_move (step_move h))).step hw hs.reachable hi hA h hL

/-- The code on the lists does not follow a null pointer. -/
theorem Linked.exists_linkStep (hw : g.HasWheel) (hs : Linked g R P s L)
    (h : Acdc.step g R i s = .ok s') :
    ∃ L', linkStep g R i s L = .ok L' ∧ ChainedNodes false g s' L'.nodes :=
  (hs.chainedNodes hw (by simp)).step hw (hs.reachable.inv_of_hasWheel hw) h (by simp)

/-- Every step of the threads can be done in memory. -/
theorem Linked.exists_step (hw : g.HasWheel) (hs : Linked g R P s L) (hi : i < g.threads)
    (h : Acdc.step g R i s = .ok s') (hP : P i s) : ∃ L', Linked g R P s' L' := by
  obtain ⟨L', hL', -⟩ := hs.exists_linkStep hw h
  exact ⟨L', .step i hs hi h hL' hP⟩

/-- Memory without lists. -/
def noLinks : Links := ⟨⟨fun _ ↦ ⟨none, none⟩, fun _ ↦ ⟨none, none⟩⟩,
  ⟨fun _ ↦ ⟨none, none⟩, fun _ ↦ ⟨none, none⟩⟩⟩

theorem Reachable.exists_linked (hw : g.HasWheel) (hs : Reachable g R s) :
    ∃ L, Linked g R (fun _ _ ↦ True) s L := by
  induction hs with
  | start hd => exact ⟨noLinks, .start _ hd (fun _ ↦ rfl) fun _ ↦ rfl⟩
  | step i _ hi h ih =>
    obtain ⟨L, hL⟩ := ih
    exact hL.exists_step hw hi h trivial

/-- Shared lifetime-classes and caches are well formed in every run. -/
theorem Linked.shared (hw : g.HasWheel) (h : Linked g R P s L) (r k : Nat) :
    ∃ l, L.nodes.WellFormed (.shared r k) l :=
  ⟨_, (h.chainedNodes (p := false) hw (by simp)).holds.at_list (.shared r k)⟩

theorem Linked.nodeCache (hw : g.HasWheel) (h : Linked g R P s L) (i : Nat) :
    ∃ l, L.nodes.WellFormed (.nodeCache i) l :=
  ⟨_, (h.chainedNodes (p := false) hw (by simp)).holds.at_list (.nodeCache i)⟩

theorem Linked.classCache (hw : g.HasWheel) (h : Linked g R P s L) (hA : SlotsApart s)
    (i : Nat) : ∃ l, L.classes.WellFormed i l :=
  ⟨_, (h.chainedClasses hw hA).holds.at_list i⟩

/-- A local lifetime-class can be walked forwards in every run. -/
theorem Linked.forward (hw : g.HasWheel) (h : Linked g R P s L)
    (hr : (s.threads i).pc.inRemoval = false) (k : Nat) :
    L.nodes.Forward (.heapClass i k) (contents g s (.heapClass i k)) := by
  have hat := (h.chainedNodes (p := false) hw (by simp)).holds.at_list (.heapClass i k)
  rwa [level_heapClass hr] at hat

/-- Every list is well formed if no fetch appends to a lifetime-class and no class slot is carved
twice. -/
theorem Linked.wellLinked (hw : g.HasWheel) (h : Linked g R (FetchesApart g) s L)
    (hA : SlotsApart s) : WellLinked s L where
  heapClass i k hr := by
    have hat := (h.chainedNodes (p := true) hw fun _ _ _ ↦ id).holds.at_list (.heapClass i k)
    rw [level_heapClass hr] at hat
    exact ⟨_, hat⟩
  shared := h.shared hw
  nodeCache := h.nodeCache hw
  classCache := h.classCache hw hA

end Runs

end Acdc
