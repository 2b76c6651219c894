import Acdc.Links
import Acdc.Threads

/-!
# What the lists in memory hold

In every run the lists in memory hold the nodes that the lists of `Acdc.Machine` have, and no
node is in two lists. Shared lifetime-classes and caches are well formed in every state; a
local lifetime-class is linked forwards, and it is well formed as long as no fetch has appended
to it.
-/

namespace Acdc

open DList

variable {σ : Type}

/-- A slot leaves its cache, or is fresh; it is in no list then. -/
theorem takeSlot_spec {κ : Type} [DecidableEq κ] {m : Store κ Slot} {f : κ → List Slot}
    {v : κ → Store.Level} {size k₀ k : Nat} {slot : Nat → Slot} {node : Slot} {cache : List Slot}
    {fresh : Except Stop Slot} (list : κ) (h : m.Holds f v) (hv : v list = .both)
    (ht : Taken size slot (f list) k₀ node cache k)
    (hfresh : f list = [] → fresh = .ok (slot k₀) ∧ ∀ j, slot k₀ ∉ f j) :
    ∃ m', takeSlot m list fresh = .ok (node, m') ∧
      m'.Holds (Function.update f list cache) v ∧
      ∀ j, node ∉ Function.update f list cache j := by
  have hfirst := (h.at_list list).first (by rw [hv]; nofun)
  unfold takeSlot
  generalize hl : f list = l at ht hfirst hfresh
  cases ht with
  | reused =>
    have hn := h.separate.notMem_update hl
    rw [hfirst]
    dsimp only [List.head?_cons]
    rw [Store.setNext_setPrev]
    exact ⟨_, rfl, (h.remove hv hl).setLinks hn _, hn⟩
  | carved =>
    obtain ⟨rfl, hk⟩ := hfresh rfl
    have hf : Function.update f list [] = f := by rw [← hl, Function.update_eq_self]
    rw [hfirst, hf]
    dsimp only [List.head?_nil, bind, Except.bind, pure, Except.pure]
    rw [Store.setNext_setPrev]
    exact ⟨_, rfl, h.setLinks hk _, hk⟩

/-! ### The nodes of the lists -/

/-- The nodes of a lifetime-class. -/
def slots (l : LClass) : List Slot := l.map LSCNode.slot

/-- The nodes that a thread in the removal loop has not given back. -/
def remaining (g : GOptions) (th : Thread σ) : List Slot :=
  let expired := slots (th.mc.heapClass.getD (heapClassRemoveIndex g th.mc.time) [])
  match th.pc with
  | .removing => expired
  | .deallocating node | .recycling node => node.slot :: expired
  | _ => []

/-- The nodes of each list. In the removal loop those of the expired lifetime-class belong to
the iterator. -/
def contents (g : GOptions) (s : Sys σ) : NodeList → List Slot
  | .heapClass i k =>
    if (s.threads i).pc.inRemoval ∧ k = heapClassRemoveIndex g (s.threads i).mc.time then []
    else slots ((s.threads i).mc.heapClass.getD k [])
  | .shared r k => slots ((s.pools r).getD k [])
  | .nodeCache i => (s.threads i).mc.nodeCache
  | .iterator i => remaining g (s.threads i)

/-- What is known of each list: a local lifetime-class is well formed if `p`. The ends of the
expired one are not valid in the removal loop. -/
def level (p : Bool) (g : GOptions) (s : Sys σ) : NodeList → Store.Level
  | .heapClass i k =>
    if (s.threads i).pc.inRemoval ∧ k = heapClassRemoveIndex g (s.threads i).mc.time then .stale
    else if p then .both else .forward
  | .iterator i => if (s.threads i).pc.inRemoval then .walk else .stale
  | .shared .. | .nodeCache .. => .both

/-- The lists of nodes hold the nodes of the lists of the threads, all of them carved. -/
structure ChainedNodes (p : Bool) (g : GOptions) (s : Sys σ) (m : Store NodeList Slot) :
    Prop where
  holds : m.Holds (contents g s) (level p g s)
  carved : ∀ k, ∀ c ∈ contents g s k, c.index < (s.threads c.owner).mc.nodeBufferCounter

/-- The class caches hold the free class slots, all of them carved. -/
structure ChainedClasses (s : Sys σ) (m : Store Nat Slot) : Prop where
  holds : m.Holds (fun i ↦ (s.threads i).mc.classCache) fun _ ↦ .both
  carved : ∀ i, ∀ c ∈ (s.threads i).mc.classCache,
    c.index < (s.threads c.owner).mc.classBufferCounter

variable {p : Bool} {g : GOptions} {R : Generator σ} {i : Nat} {s s' : Sys σ}
  {m : Store NodeList Slot}

theorem remaining_eq_nil {th : Thread σ} (h : th.pc.inRemoval = false) :
    remaining g th = [] := by
  unfold remaining
  cases hpc : th.pc <;> first | rfl | simp [hpc, Pc.inRemoval] at h

-- What a step of thread `i` does to the lists, from what it does to those of `i` and to the
-- shared ones.
private theorem lists_ext (hne : ∀ j, j ≠ i → s'.threads j = s.threads j)
    {f : NodeList → List Slot} {v : NodeList → Store.Level}
    (hclass : ∀ k, contents g s' (.heapClass i k) = f (.heapClass i k) ∧
      level p g s' (.heapClass i k) = v (.heapClass i k))
    (hcache : contents g s' (.nodeCache i) = f (.nodeCache i) ∧
      level p g s' (.nodeCache i) = v (.nodeCache i))
    (hiter : contents g s' (.iterator i) = f (.iterator i) ∧
      level p g s' (.iterator i) = v (.iterator i))
    (hshared : ∀ r k, contents g s' (.shared r k) = f (.shared r k) ∧
      level p g s' (.shared r k) = v (.shared r k))
    (hother : ∀ j, j ≠ i → ∀ x, x = .nodeCache j ∨ x = .iterator j ∨ (∃ k, x = .heapClass j k) →
      contents g s x = f x ∧ level p g s x = v x) :
    contents g s' = f ∧ level p g s' = v := by
  have hlist (x : NodeList) : contents g s' x = f x ∧ level p g s' x = v x := by
    cases x with
    | shared r k => exact hshared r k
    | heapClass j k =>
      by_cases hj : j = i
      · exact hj ▸ hclass k
      · rw [← (hother j hj _ (.inr (.inr ⟨k, rfl⟩))).1, ← (hother j hj _ (.inr (.inr ⟨k, rfl⟩))).2]
        simp [contents, level, hne j hj]
    | nodeCache j =>
      by_cases hj : j = i
      · exact hj ▸ hcache
      · rw [← (hother j hj _ (.inl rfl)).1, ← (hother j hj _ (.inl rfl)).2]
        simp [contents, level, hne j hj]
    | iterator j =>
      by_cases hj : j = i
      · exact hj ▸ hiter
      · rw [← (hother j hj _ (.inr (.inl rfl))).1, ← (hother j hj _ (.inr (.inl rfl))).2]
        simp [contents, level, hne j hj]
  exact ⟨funext fun x ↦ (hlist x).1, funext fun x ↦ (hlist x).2⟩

/-- The lists stay as they are in a step outside the removal loop that writes none. -/
theorem contents_congr (hp : s'.pools = s.pools)
    (hne : ∀ j, j ≠ i → s'.threads j = s.threads j)
    (hh : (s'.threads i).mc.heapClass = (s.threads i).mc.heapClass)
    (hn : (s'.threads i).mc.nodeCache = (s.threads i).mc.nodeCache)
    (hr : (s.threads i).pc.inRemoval = false) (hr' : (s'.threads i).pc.inRemoval = false) :
    contents g s' = contents g s ∧ level p g s' = level p g s := by
  apply lists_ext hne
  · intro k
    simp [contents, level, hr, hr', hh]
  · simp [contents, level, hn]
  · simp [contents, level, hr, hr', remaining_eq_nil]
  · intro r k
    simp [contents, level, hp]
  · exact fun _ _ _ _ ↦ ⟨rfl, rfl⟩

/-- The lists of nodes stay as they are. -/
theorem ChainedNodes.same (hC : ChainedNodes p g s m)
    (hc : contents g s' = contents g s ∧ level p g s' = level p g s)
    (hn : ∀ j, (s'.threads j).mc.nodeBufferCounter = (s.threads j).mc.nodeBufferCounter) :
    ChainedNodes p g s' m where
  holds := by
    rw [hc.1, hc.2]
    exact hC.holds
  carved k c hk := by
    rw [hn]
    exact hC.carved k c (hc.1 ▸ hk)

/-- The next slot of a buffer is in no list. -/
theorem ChainedNodes.fresh (hC : ChainedNodes p g s m) (i : Nat) (k : NodeList) :
    ⟨i, (s.threads i).mc.nodeBufferCounter⟩ ∉ contents g s k :=
  fun h ↦ Nat.lt_irrefl _ (hC.carved k _ h)

/-- The offset of a node that is carved is defined. -/
theorem Taken.nodeSlot_eq {k₀ k : Nat} {cache₀ cache : List Slot} {node : Slot}
    (ht : Taken g.nodeLimit (Slot.mk i) cache₀ k₀ node cache k) (hnil : cache₀ = []) :
    nodeSlot i k₀ = .ok ⟨i, k₀⟩ := by
  cases ht with
  | reused => cases hnil
  | carved _ hk => rw [Acdc.nodeSlot_eq, if_pos (Nat.lt_of_lt_of_le hk (Nat.min_le_right ..))]

/-- The counter of a buffer stays ahead of the slots that have been taken. -/
theorem Taken.index_lt {i size k₀ k : Nat} {slot : Nat → Slot} {cache₀ cache : List Slot}
    {node : Slot} (ht : Taken size slot cache₀ k₀ node cache k) {counter counter' : Nat → Nat}
    (hslot : (slot k₀).owner = i ∧ (slot k₀).index ≤ k₀)
    (h0 : ∀ c ∈ cache₀, c.index < counter c.owner) (hk₀ : counter i = k₀)
    (hk : counter' = Function.update counter i k) :
    node.index < counter' node.owner ∧ ∀ j, counter j ≤ counter' j := by
  subst hk
  cases ht with
  | reused =>
    rw [← hk₀, Function.update_eq_self]
    exact ⟨h0 node List.mem_cons_self, fun _ ↦ Nat.le_refl _⟩
  | carved =>
    refine ⟨?_, fun j ↦ ?_⟩
    · rw [hslot.1, Function.update_self]
      exact Nat.lt_succ_of_le hslot.2
    · by_cases hj : j = i
      · subst hj
        rw [Function.update_self, hk₀]
        exact Nat.le_succ k₀
      · rw [Function.update_of_ne hj]

theorem Taken.sublist {size k₀ k : Nat} {slot : Nat → Slot} {cache₀ cache : List Slot}
    {node : Slot} (ht : Taken size slot cache₀ k₀ node cache k) : cache.Sublist cache₀ := by
  cases ht with
  | reused => exact List.sublist_cons_self _ _
  | carved => exact List.Sublist.refl _

theorem mem_of_update {κ : Type} [DecidableEq κ] {f : κ → List Slot} {k j : κ}
    {l : List Slot} {c : Slot} (h : c ∈ Function.update f k l j) : c ∈ l ∨ c ∈ f j := by
  by_cases hj : j = k
  · subst hj
    rw [Function.update_self] at h
    exact .inl h
  · rw [Function.update_of_ne hj] at h
    exact .inr h

/-- Insertion of a node into a lifetime-class. -/
theorem ChainedNodes.insert {target : NodeList} {node : Slot} {cache : List Slot}
    {k : Nat} (hC : ChainedNodes p g s m)
    (ht : Taken g.nodeLimit (Slot.mk i) (s.threads i).mc.nodeCache
      (s.threads i).mc.nodeBufferCounter node cache k)
    (hv : level p g s target = .forward ∨ level p g s target = .both)
    (hne : target ≠ .nodeCache i)
    (hc : contents g s' = Function.update (Function.update (contents g s) (.nodeCache i) cache)
      target (contents g s target ++ [node]))
    (hl : level p g s' = level p g s)
    (hk : (fun j ↦ (s'.threads j).mc.nodeBufferCounter) =
      Function.update (fun j ↦ (s.threads j).mc.nodeBufferCounter) i k) (L : Links)
    (hL : L.nodes = m) :
    ∃ L', L.heapClassInsert i (s.threads i).mc.nodeBufferCounter target = .ok L' ∧
      ChainedNodes p g s' L'.nodes := by
  subst hL
  obtain ⟨m', hm', hholds, hfresh⟩ := takeSlot_spec (NodeList.nodeCache i) hC.holds rfl ht
    fun hnil ↦ ⟨ht.nodeSlot_eq hnil, hC.fresh i⟩
  have hlink : L.heapClassInsert i (s.threads i).mc.nodeBufferCounter target =
      .ok { L with nodes := lclassInsertEnd m' target node } := by
    simp only [Links.heapClassInsert, Links.getLSCNode, hm']
    rfl
  refine ⟨_, hlink, ?_⟩
  have hcache : ∀ c ∈ (s.threads i).mc.nodeCache,
      c.index < (fun j ↦ (s.threads j).mc.nodeBufferCounter) c.owner := hC.carved (.nodeCache i)
  obtain ⟨hlt, hmono⟩ := ht.index_lt ⟨rfl, Nat.le_refl _⟩ hcache rfl hk
  constructor
  · have hins := hholds.insertEnd hv hfresh
    rwa [Function.update_of_ne hne, ← hc, ← hl] at hins
  · intro j c hj
    rw [hc] at hj
    have hold (k : NodeList) (hk : c ∈ contents g s k) :
        c.index < (s'.threads c.owner).mc.nodeBufferCounter :=
      Nat.lt_of_lt_of_le (hC.carved k c hk) (hmono c.owner)
    obtain hj | hj := mem_of_update hj
    · obtain hj | hj := List.mem_append.mp hj
      · exact hold target hj
      · exact List.mem_singleton.mp hj ▸ hlt
    · obtain hj | hj := mem_of_update hj
      · exact hold (.nodeCache i) (ht.sublist.subset hj)
      · exact hold j hj

/-- The nodes of the lists change places. -/
theorem ChainedNodes.moved {m' : Store NodeList Slot} (hC : ChainedNodes p g s m)
    (h : m'.Holds (contents g s') (level p g s'))
    (hn : ∀ j, (s'.threads j).mc.nodeBufferCounter = (s.threads j).mc.nodeBufferCounter)
    (hc : ∀ j, ∀ c ∈ contents g s' j, ∃ k, c ∈ contents g s k) : ChainedNodes p g s' m' where
  holds := h
  carved j c hj := by
    obtain ⟨k, hk⟩ := hc j c hj
    rw [hn]
    exact hC.carved k c hk

/-- An iteration of the removal loop in memory. -/
theorem holds_giveBack {L : Links} {f : NodeList → List Slot} {v : NodeList → Store.Level}
    {node : Slot} {expired : List Slot} (h : L.nodes.Holds f v)
    (hr : f (.iterator i) = node :: expired) (hv : v (.iterator i) = .walk)
    (hc : v (.nodeCache i) = .both) :
    ∃ L', L.giveBack i = .ok L' ∧ L'.classes = L.classes ∧
      L'.nodes.Holds (Function.update (Function.update f (.iterator i) expired) (.nodeCache i)
        (node :: f (.nodeCache i))) v := by
  have hfirst := (h.at_list (.iterator i)).first (by rw [hv]; nofun)
  rw [hr, List.head?_cons] at hfirst
  have hins := (h.advance hv hr).insertBeginning hc (h.separate.notMem_update hr)
  rw [Function.update_of_ne (by nofun)] at hins
  have hgive : L.giveBack i = .ok { L with
      nodes := lclassInsertBeginning
        (L.nodes.setFirst (.iterator i) (L.nodes.links node).next) (.nodeCache i) node } := by
    rw [Links.giveBack, hfirst]
    rfl
  exact ⟨_, hgive, rfl, hins⟩

/-- The end of the removal loop in memory. -/
theorem holds_endRemove {L : Links} {f : NodeList → List Slot} {v : NodeList → Store.Level}
    {k : Nat} (h : L.nodes.Holds f v) (hv : v (.iterator i) = .walk) (hi : f (.iterator i) = [])
    (hk : f (.heapClass i k) = []) (u : Store.Level) :
    (L.endRemove i k).nodes.Holds f
      (Function.update (Function.update v (.heapClass i k) u) (.iterator i) .stale) := by
  have hfirst := (h.at_list (.iterator i)).first (by rw [hv]; nofun)
  rw [hi, List.head?_nil] at hfirst
  have hclear := h.clear (.heapClass i k) u
  rw [← hk, Function.update_eq_self] at hclear
  have hend : (L.endRemove i k).nodes = { L.nodes with
      ends := Function.update L.nodes.ends (.heapClass i k) ⟨none, none⟩ } := by
    rw [Links.endRemove, hfirst]
    exact Store.setFirst_setLast ..
  rw [← hend] at hclear
  apply hclear.weaken
  intro j
  by_cases hj : j = .iterator i
  · exact .inr (hj ▸ Function.update_self ..)
  · exact .inl (Function.update_of_ne hj _ _)

/-- A node is given back. -/
theorem ChainedNodes.giveBack {node : Slot} {expired : List Slot} {L : Links}
    (hC : ChainedNodes p g s L.nodes) (hr : contents g s (.iterator i) = node :: expired)
    (hv : level p g s (.iterator i) = .walk)
    (hc : contents g s' = Function.update (Function.update (contents g s) (.iterator i) expired)
      (.nodeCache i) (node :: contents g s (.nodeCache i)))
    (hl : level p g s' = level p g s)
    (hn : ∀ j, (s'.threads j).mc.nodeBufferCounter = (s.threads j).mc.nodeBufferCounter) :
    ∃ L', L.giveBack i = .ok L' ∧ L'.classes = L.classes ∧ ChainedNodes p g s' L'.nodes := by
  obtain ⟨L', hgive, hclasses, hins⟩ := holds_giveBack hC.holds hr hv rfl
  rw [← hc, ← hl] at hins
  refine ⟨L', hgive, hclasses, hC.moved hins hn fun j c hj ↦ ?_⟩
  rw [hc] at hj
  obtain hj | hj := mem_of_update hj
  · obtain rfl | hj := List.mem_cons.mp hj
    · exact ⟨.iterator i, hr ▸ List.mem_cons_self⟩
    · exact ⟨.nodeCache i, hj⟩
  · obtain hj | hj := mem_of_update hj
    · exact ⟨.iterator i, hr ▸ List.mem_cons_of_mem node hj⟩
    · exact ⟨j, hj⟩

/-- The removal loop starts. -/
theorem ChainedNodes.startRemove {k : Nat} {L : Links} (hC : ChainedNodes p g s L.nodes)
    (hv : level p g s (.heapClass i k) = .forward ∨ level p g s (.heapClass i k) = .both)
    (hi : contents g s (.iterator i) = [])
    (hc : contents g s' = Function.update (Function.update (contents g s) (.heapClass i k) [])
      (.iterator i) (contents g s (.heapClass i k)))
    (hl : level p g s' = Function.update (Function.update (level p g s) (.heapClass i k) .stale)
      (.iterator i) .walk)
    (hn : ∀ j, (s'.threads j).mc.nodeBufferCounter = (s.threads j).mc.nodeBufferCounter) :
    ChainedNodes p g s' (L.startRemove i k).nodes := by
  have hne : NodeList.heapClass i k ≠ .iterator i := nofun
  have hdet := hC.holds.detach hne hv hi
  rw [← hc, ← hl] at hdet
  refine hC.moved hdet hn fun j c hj ↦ ?_
  rw [hc] at hj
  obtain hj | hj := mem_of_update hj
  · exact ⟨.heapClass i k, hj⟩
  · obtain hj | hj := mem_of_update hj
    · cases hj
    · exact ⟨j, hj⟩

/-- The removal loop ends. -/
theorem ChainedNodes.endRemove {k : Nat} {L : Links} (hC : ChainedNodes p g s L.nodes)
    (hv : level p g s (.iterator i) = .walk) (hi : contents g s (.iterator i) = [])
    (hk : contents g s (.heapClass i k) = [])
    (hc : contents g s' = contents g s)
    (hl : level p g s' = Function.update (Function.update (level p g s) (.heapClass i k)
      (level p g s' (.heapClass i k))) (.iterator i) .stale)
    (hn : ∀ j, (s'.threads j).mc.nodeBufferCounter = (s.threads j).mc.nodeBufferCounter) :
    ChainedNodes p g s' (L.endRemove i k).nodes := by
  have hend := holds_endRemove hC.holds hv hi hk (level p g s' (.heapClass i k))
  rw [← hc, ← hl] at hend
  exact hC.moved hend hn fun j c hj ↦ ⟨j, hc ▸ hj⟩

/-! ### The fetch -/

/-- The nodes of each list while thread `i` fetches, with its local and its shared
heap-class. -/
def fetched (f : NodeList → List Slot) (i : Nat) (q : HeapClass × HeapClass) :
    NodeList → List Slot
  | .heapClass j k => if j = i then slots (q.1.getD k []) else f (.heapClass j k)
  | .shared r k => if r = i then slots (q.2.getD k []) else f (.shared r k)
  | x => f x

private theorem fetchLClass_eq_append {f : NodeList → List Slot} {v : NodeList → Store.Level}
    {time : UInt32} {k : Nat} (h : m.Holds f v)
    (hv : v (.shared i k) = .forward ∨ v (.shared i k) = .both)
    (hv' : v (.heapClass i (heapClassGetIndex g time (UInt32.ofNat k))) = .forward ∨
      v (.heapClass i (heapClassGetIndex g time (UInt32.ofNat k))) = .both)
    (hk : f (.shared i k) ≠ []) :
    Links.fetchLClass g i time m k = .ok (m.appendForward (.shared i k)
      (.heapClass i (heapClassGetIndex g time (UInt32.ofNat k)))) := by
  have hremote := ((h.at_list (.shared i k)).forward hv).next.eq_head?
  have hhere := (h.at_list (.heapClass i (heapClassGetIndex g time (UInt32.ofNat k)))).forward hv'
  have hfirst := hhere.next.eq_head?
  have hlast := hhere.last
  have hne : NodeList.shared i k ≠
    .heapClass i (heapClassGetIndex g time (UInt32.ofNat k)) := nofun
  unfold Links.fetchLClass Store.appendForward
  generalize NodeList.heapClass i (heapClassGetIndex g time (UInt32.ofNat k)) = here at *
  obtain ⟨r, l', hl'⟩ := List.exists_cons_of_ne_nil hk
  rw [hl', List.head?_cons] at hremote
  obtain hl | ⟨l, z, hl⟩ := List.eq_nil_or_concat' (f here)
  · rw [hl] at hfirst hlast
    simp only [hremote, hfirst, hlast, List.head?_nil, List.getLast?_nil, bind, Except.bind, pure,
      Except.pure, Store.setFirst_ends, Function.update_of_ne hne, Store.setFirst_setLast,
      Function.update_comm hne]
    rw [← hremote]
  · obtain ⟨a, l'', ha⟩ := List.exists_cons_of_ne_nil (show f here ≠ [] by simp [hl])
    rw [hl, List.getLast?_concat] at hlast
    rw [ha, List.head?_cons] at hfirst
    simp only [hremote, hfirst, hlast, bind, Except.bind, pure, Except.pure,
      Store.setFirst_setLast, Store.setLast_links, Store.setNext_links, Store.setLast_ends,
      Store.setNext_ends, Function.update_comm hne]

/-- What a splice moves. -/
def spliced (g : GOptions) (i : Nat) (time : UInt32) (f : NodeList → List Slot) (k : Nat) :
    NodeList → List Slot :=
  let here := NodeList.heapClass i (heapClassGetIndex g time (UInt32.ofNat k))
  Function.update (Function.update f (.shared i k) []) here (f here ++ f (.shared i k))

/-- A shared lifetime-class without nodes is passed over. -/
theorem spliced_of_nil {f : NodeList → List Slot} {time : UInt32} {k : Nat}
    (hk : f (.shared i k) = []) : spliced g i time f k = f := by
  rw [spliced, hk, List.append_nil, ← hk, Function.update_eq_self, Function.update_eq_self]

/-- One splice in memory. -/
theorem holds_splice {f : NodeList → List Slot} {v : NodeList → Store.Level} {time : UInt32}
    {k : Nat} (h : m.Holds f v) (hv : v (.shared i k) = .forward ∨ v (.shared i k) = .both)
    (hv' : f (.shared i k) ≠ [] →
      v (.heapClass i (heapClassGetIndex g time (UInt32.ofNat k))) = .forward ∨
        v (.shared i k) = .both ∧
          v (.heapClass i (heapClassGetIndex g time (UInt32.ofNat k))) = .both ∧
            f (.heapClass i (heapClassGetIndex g time (UInt32.ofNat k))) = []) :
    ∃ m', Links.fetchLClass g i time m k = .ok m' ∧ m'.Holds (spliced g i time f k) v := by
  have hne : NodeList.shared i k ≠
    .heapClass i (heapClassGetIndex g time (UInt32.ofNat k)) := nofun
  by_cases hk : f (.shared i k) = []
  · have hfirst := ((h.at_list (.shared i k)).forward hv).next.eq_head?
    rw [hk, List.head?_nil] at hfirst
    rw [spliced_of_nil hk]
    refine ⟨m, ?_, h⟩
    simp only [Links.fetchLClass, hfirst]
  · have hto := hv' hk
    exact ⟨_, fetchLClass_eq_append h hv (hto.imp_right fun h ↦ h.2.1) hk,
      h.appendForward hne hv hk hto⟩

private theorem fetched_fetchLClass (f : NodeList → List Slot) {q : HeapClass × HeapClass}
    {time : UInt32} {k : Nat} (hk : k < q.2.length)
    (hj : heapClassGetIndex g time (UInt32.ofNat k) < q.1.length) :
    fetched f i (fetchLClass g time q k) = spliced g i time (fetched f i q) k := by
  rw [fetchLClass_eq g _ _ hk, spliced]
  generalize heapClassGetIndex g time (UInt32.ofNat k) = here at hj
  funext x
  cases x with
  | heapClass j k' =>
    by_cases hji : j = i
    · subst hji
      by_cases hk' : k' = here
      · subst hk'
        simp [fetched, slots, hk, hj]
      · simp [fetched, hk', Ne.symm hk']
    · simp [fetched, hji]
  | shared r k' =>
    by_cases hri : r = i
    · subst hri
      by_cases hk' : k' = k
      · subst hk'
        simp [fetched, slots, hk]
      · simp [fetched, hk', Ne.symm hk']
    · simp [fetched, hri]
  | nodeCache j => simp [fetched]
  | iterator j => simp [fetched]

/-- The shared lifetime-classes `ks` that have nodes are fetched to local ones that have none,
each to its own. -/
def Apart (g : GOptions) (time : UInt32) (q : HeapClass × HeapClass) (ks : List Nat) : Prop :=
  ∀ k ∈ ks, q.2.getD k [] ≠ [] →
    q.1.getD (heapClassGetIndex g time (UInt32.ofNat k)) [] = [] ∧
      ∀ k' ∈ ks, q.2.getD k' [] ≠ [] → heapClassGetIndex g time (UInt32.ofNat k') =
        heapClassGetIndex g time (UInt32.ofNat k) → k' = k

instance (g : GOptions) (time : UInt32) (q : HeapClass × HeapClass) (ks : List Nat) :
    Decidable (Apart g time q ks) :=
  inferInstanceAs (Decidable (∀ k ∈ ks, _ → _ ∧ ∀ k' ∈ ks, _ → _ → _))

private theorem slots_eq_nil {l : LClass} : slots l = [] ↔ l = [] := List.map_eq_nil_iff

private theorem fetchLClass_of_nil {q : HeapClass × HeapClass} {time : UInt32} {k : Nat}
    (hk : k < q.2.length) (hn : q.2.getD k [] = []) : fetchLClass g time q k = q := by
  rw [List.getD_eq_getElem?_getD, List.getElem?_eq_getElem hk, Option.getD_some] at hn
  unfold fetchLClass
  rw [List.getElem?_eq_getElem hk, hn]

private theorem holds_fetchLClass {f : NodeList → List Slot} {v : NodeList → Store.Level}
    {q : HeapClass × HeapClass} {time : UInt32} {k : Nat} {ks : List Nat}
    (h : m.Holds (fetched f i q) v) (hv : v (.shared i k) = .both)
    (hv' : ∀ j, v (.heapClass i j) = if p then .both else .forward)
    (hk : k < q.2.length) (hj : heapClassGetIndex g time (UInt32.ofNat k) < q.1.length)
    (hp : p = true → Apart g time q (k :: ks)) :
    ∃ m', Links.fetchLClass g i time m k = .ok m' ∧
      m'.Holds (fetched f i (fetchLClass g time q k)) v := by
  rw [fetched_fetchLClass f hk hj]
  apply holds_splice h (.inr hv)
  intro hne
  cases p with
  | false => exact .inl (hv' _)
  | true =>
    refine .inr ⟨hv, hv' _, ?_⟩
    have hshared : fetched f i q (.shared i k) = slots (q.2.getD k []) := if_pos rfl
    rw [hshared, ne_eq, slots_eq_nil] at hne
    obtain ⟨hempty, -⟩ := hp rfl k List.mem_cons_self hne
    show (if i = i then slots (q.1.getD _ []) else _) = []
    rw [if_pos rfl, hempty]
    rfl

private theorem Apart.fetchLClass {q : HeapClass × HeapClass} {time : UInt32} {k : Nat}
    {ks : List Nat} (h : Apart g time q (k :: ks)) (hk : k < q.2.length) (hn : k ∉ ks) :
    Apart g time (fetchLClass g time q k) ks := by
  by_cases hkn : q.2.getD k [] = []
  · rw [fetchLClass_of_nil hk hkn]
    intro a ha hne
    obtain ⟨hempty, huniq⟩ := h a (List.mem_cons_of_mem k ha) hne
    exact ⟨hempty, fun b hb ↦ huniq b (List.mem_cons_of_mem k hb)⟩
  · intro a ha hne
    rw [fetchLClass_eq g _ _ hk] at hne ⊢
    have hkeep {b : Nat} (hb : b ∈ ks) : (q.2.set k []).getD b [] = q.2.getD b [] := by
      rw [List.getD_eq_getElem?_getD, List.getElem?_set_ne (ne_of_mem_of_not_mem hb hn).symm,
        ← List.getD_eq_getElem?_getD]
    rw [hkeep ha] at hne
    obtain ⟨hempty, huniq⟩ := h a (List.mem_cons_of_mem k ha) hne
    constructor
    · have hidx : heapClassGetIndex g time (UInt32.ofNat k) ≠
          heapClassGetIndex g time (UInt32.ofNat a) :=
        fun he ↦ hn (huniq k List.mem_cons_self hkn he ▸ ha)
      simpa [List.getElem?_modify, hidx] using hempty
    · intro b hb hbne hidx
      exact huniq b (List.mem_cons_of_mem k hb) (hkeep hb ▸ hbne) hidx

private theorem mem_fetched {f : NodeList → List Slot} {q : HeapClass × HeapClass}
    {time : UInt32} {k : Nat} (hk : k < q.2.length)
    (hj : heapClassGetIndex g time (UInt32.ofNat k) < q.1.length) {x : NodeList} {c : Slot}
    (h : c ∈ fetched f i (fetchLClass g time q k) x) : ∃ y, c ∈ fetched f i q y := by
  rw [fetched_fetchLClass f hk hj] at h
  obtain h | h := mem_of_update h
  · obtain h | h := List.mem_append.mp h
    · exact ⟨_, h⟩
    · exact ⟨_, h⟩
  · obtain h | h := mem_of_update h
    · cases h
    · exact ⟨x, h⟩

/-- The fetch loop does in memory what it does to the lists. -/
theorem holds_fetch {f : NodeList → List Slot} {v : NodeList → Store.Level}
    {time : UInt32} (hv : ∀ k, v (.shared i k) = .both)
    (hv' : ∀ j, v (.heapClass i j) = if p then .both else .forward) (ks : List Nat)
    (hks : ks.Nodup) {q : HeapClass × HeapClass} (h : m.Holds (fetched f i q) v)
    (hk : ∀ k ∈ ks, k < q.2.length)
    (hj : ∀ k ∈ ks, heapClassGetIndex g time (UInt32.ofNat k) < q.1.length)
    (hp : p = true → Apart g time q ks) :
    ∃ m', ks.foldlM (Links.fetchLClass g i time) m = .ok m' ∧
      m'.Holds (fetched f i (ks.foldl (fetchLClass g time) q)) v ∧
      ∀ x, ∀ c ∈ fetched f i (ks.foldl (fetchLClass g time) q) x,
        ∃ y, c ∈ fetched f i q y := by
  induction ks generalizing q m with
  | nil => exact ⟨m, rfl, h, fun x _ hx ↦ ⟨x, hx⟩⟩
  | cons k ks ih =>
    obtain ⟨hnk, hks⟩ := List.nodup_cons.mp hks
    have hkq := hk k List.mem_cons_self
    obtain ⟨m₁, hm₁, h₁⟩ := holds_fetchLClass h (hv k) hv' hkq (hj k List.mem_cons_self) hp
    have hlen := fetchLClass_eq g time q hkq
    obtain ⟨m', hm', h', hmem⟩ := ih hks h₁
      (fun b hb ↦ by
        rw [hlen, List.length_set]
        exact hk b (List.mem_cons_of_mem k hb))
      (fun b hb ↦ by
        rw [hlen, List.length_modify]
        exact hj b (List.mem_cons_of_mem k hb))
      fun hpt ↦ (hp hpt).fetchLClass hkq hnk
    refine ⟨m', ?_, h', fun x c hx ↦ ?_⟩
    · rw [List.foldlM_cons, hm₁]
      exact hm'
    · obtain ⟨y, hy⟩ := hmem x c hx
      exact mem_fetched hkq (hj k List.mem_cons_self) hy

/-! ### What the steps do to the lists -/

section Steps

variable (hne : ∀ j, j ≠ i → s'.threads j = s.threads j)

theorem fetched_self (hr : (s.threads i).pc.inRemoval = false) :
    fetched (contents g s) i ((s.threads i).mc.heapClass, s.pools i) = contents g s := by
  funext x
  cases x with
  | heapClass j k =>
    by_cases hj : j = i
    · subst hj
      simp [fetched, contents, hr]
    · simp [fetched, hj]
  | shared r k =>
    by_cases hri : r = i
    · subst hri
      simp [fetched, contents]
    · simp [fetched, hri]
  | nodeCache | iterator => rfl

/-- After a fetch. -/
theorem contents_fetch {q : HeapClass × HeapClass} {pc : Pc}
    (hr : (s.threads i).pc.inRemoval = false) (hr' : pc.inRemoval = false) :
    let s' := (s.putPool i q.2).put i { s.threads i with
      mc := { (s.threads i).mc with heapClass := q.1 }
      pc := pc }
    contents g s' = fetched (contents g s) i q ∧ level p g s' = level p g s := by
  intro s'
  have hne (j : Nat) (hj : j ≠ i) : s'.threads j = s.threads j := Function.update_of_ne hj _ _
  apply lists_ext hne
  · intro k
    simp [s', fetched, contents, level, hr, hr']
  · simp [s', fetched, contents, level]
  · simp [s', fetched, contents, level, hr, hr', remaining_eq_nil]
  · intro r k
    by_cases hri : r = i
    · subst hri
      simp [s', fetched, contents, level]
    · simp [s', fetched, contents, level, hri]
  · rintro j hj x (rfl | rfl | ⟨k', rfl⟩) <;> simp [fetched, hj]

include hne

/-- After an insertion into a local lifetime-class. -/
theorem contents_insert {k : Nat} (node c : Slot) (cache : List Slot)
    (hp : s'.pools = s.pools) (hk : k < (s.threads i).mc.heapClass.length)
    (hh : (s'.threads i).mc.heapClass = (s.threads i).mc.heapClass.modify k (· ++ [⟨node, c⟩]))
    (hn : (s'.threads i).mc.nodeCache = cache)
    (hr : (s.threads i).pc.inRemoval = false) (hr' : (s'.threads i).pc.inRemoval = false) :
    contents g s' = Function.update (Function.update (contents g s) (.nodeCache i) cache)
      (.heapClass i k) (contents g s (.heapClass i k) ++ [node]) ∧
        level p g s' = level p g s := by
  apply lists_ext hne
  · intro k'
    by_cases hk' : k' = k
    · subst hk'
      simp [contents, level, hr, hr', hh, slots, hk]
    · simp [contents, level, hr, hr', hh, hk', Ne.symm hk']
  · simp [contents, level, hn]
  · simp [contents, level, hr, hr', remaining_eq_nil]
  · intro r k'
    simp [contents, level, hp]
  · rintro j hj x (rfl | rfl | ⟨k', rfl⟩) <;> simp [hj]

/-- After an insertion into a shared lifetime-class. -/
theorem contents_share {k r : Nat} (node c : Slot) (cache : List Slot)
    (hk : k < (s.pools r).length)
    (hpools : s'.pools = Function.update s.pools r ((s.pools r).modify k (· ++ [⟨node, c⟩])))
    (hh : (s'.threads i).mc.heapClass = (s.threads i).mc.heapClass)
    (hn : (s'.threads i).mc.nodeCache = cache)
    (hr : (s.threads i).pc.inRemoval = false) (hr' : (s'.threads i).pc.inRemoval = false) :
    contents g s' = Function.update (Function.update (contents g s) (.nodeCache i) cache)
      (.shared r k) (contents g s (.shared r k) ++ [node]) ∧ level p g s' = level p g s := by
  apply lists_ext hne
  · intro k'
    simp [contents, level, hr, hr', hh]
  · simp [contents, level, hn]
  · simp [contents, level, hr, hr', remaining_eq_nil]
  · intro r' k'
    by_cases hri : r' = r
    · subst hri
      by_cases hk' : k' = k
      · subst hk'
        simp [contents, level, hpools, slots, hk]
      · simp [contents, level, hpools, hk', Ne.symm hk']
    · simp [contents, level, hpools, hri]
  · rintro j hj x (rfl | rfl | ⟨k', rfl⟩) <;> simp [hj]

/-- At the start of the removal loop. -/
theorem contents_tick (hp : s'.pools = s.pools)
    (hh : (s'.threads i).mc.heapClass = (s.threads i).mc.heapClass)
    (hn : (s'.threads i).mc.nodeCache = (s.threads i).mc.nodeCache)
    (hr : (s.threads i).pc.inRemoval = false) (hpc' : (s'.threads i).pc = .removing) {k : Nat}
    (hk : k = heapClassRemoveIndex g (s'.threads i).mc.time) :
    contents g s' = Function.update (Function.update (contents g s) (.heapClass i k) [])
      (.iterator i) (contents g s (.heapClass i k)) ∧
    level p g s' = Function.update (Function.update (level p g s) (.heapClass i k) .stale)
      (.iterator i) .walk := by
  have hr' : (s'.threads i).pc.inRemoval = true := by
    rw [hpc']
    rfl
  have hrem : remaining g (s'.threads i) = slots ((s.threads i).mc.heapClass.getD k []) := by
    simp only [remaining, hpc', hh, ← hk]
  apply lists_ext hne
  · intro k'
    by_cases hk' : k' = k
    · subst hk'
      simp [contents, level, hr', ← hk]
    · simp [contents, level, hr, hr', hh, hk', ← hk]
  · simp [contents, level, hn]
  · simp [contents, level, hr, hr', hrem]
  · intro r k'
    simp [contents, level, hp]
  · rintro j hj x (rfl | rfl | ⟨k', rfl⟩) <;> simp [hj]

/-- Inside the removal loop, when a reference is dropped or a collection is freed. -/
theorem contents_remove (hp : s'.pools = s.pools)
    (hh : ∀ k, k ≠ heapClassRemoveIndex g (s.threads i).mc.time →
      (s'.threads i).mc.heapClass[k]? = (s.threads i).mc.heapClass[k]?)
    (ht : (s'.threads i).mc.time = (s.threads i).mc.time)
    (hn : (s'.threads i).mc.nodeCache = (s.threads i).mc.nodeCache)
    (hr : (s.threads i).pc.inRemoval = true) (hr' : (s'.threads i).pc.inRemoval = true)
    (hrem : remaining g (s'.threads i) = remaining g (s.threads i)) :
    contents g s' = contents g s ∧ level p g s' = level p g s := by
  apply lists_ext hne
  · intro k
    by_cases hk : k = heapClassRemoveIndex g (s.threads i).mc.time
    · simp [contents, level, hr, hr', ht, hk]
    · simp [contents, level, hr, hr', ht, hk, hh k hk, List.getD_eq_getElem?_getD]
  · simp [contents, level, hn]
  · simp [contents, level, hr, hr', hrem]
  · intro r k
    simp [contents, level, hp]
  · exact fun _ _ _ _ ↦ ⟨rfl, rfl⟩

/-- At the end of an iteration of the removal loop. -/
theorem contents_recycle {node : LSCNode} (hp : s'.pools = s.pools)
    (hpc : (s.threads i).pc = .recycling node) (hpc' : (s'.threads i).pc = .removing)
    (hh : (s'.threads i).mc.heapClass = (s.threads i).mc.heapClass)
    (ht : (s'.threads i).mc.time = (s.threads i).mc.time)
    (hn : (s'.threads i).mc.nodeCache = node.slot :: (s.threads i).mc.nodeCache) :
    contents g s' = Function.update (Function.update (contents g s) (.iterator i)
      (slots ((s.threads i).mc.heapClass.getD (heapClassRemoveIndex g (s.threads i).mc.time) [])))
      (.nodeCache i) (node.slot :: contents g s (.nodeCache i)) ∧
    level p g s' = level p g s := by
  apply lists_ext hne
  · intro k
    simp [contents, level, hpc, hpc', Pc.inRemoval, hh, ht]
  · simp [contents, level, hn]
  · simp [contents, level, remaining, hpc, hpc', Pc.inRemoval, hh, ht]
  · intro r k
    simp [contents, level, hp]
  · rintro j hj x (rfl | rfl | ⟨k', rfl⟩) <;> simp [hj]

/-- At the end of the removal loop. -/
theorem contents_endRemove (hp : s'.pools = s.pools)
    (hpc : (s.threads i).pc = .removing) (hr' : (s'.threads i).pc.inRemoval = false)
    (hh : (s'.threads i).mc.heapClass = (s.threads i).mc.heapClass)
    (hn : (s'.threads i).mc.nodeCache = (s.threads i).mc.nodeCache) {k : Nat}
    (hk : k = heapClassRemoveIndex g (s.threads i).mc.time)
    (he : (s.threads i).mc.heapClass[k]? = some []) :
    contents g s' = contents g s ∧
    level p g s' = Function.update (Function.update (level p g s) (.heapClass i k)
      (level p g s' (.heapClass i k))) (.iterator i) .stale := by
  have hr : (s.threads i).pc.inRemoval = true := by
    rw [hpc]
    rfl
  have hrem : remaining g (s.threads i) = [] := by simp [remaining, hpc, ← hk, he, slots]
  apply lists_ext hne
  · intro k'
    by_cases hk' : k' = k
    · subst hk'
      simp [contents, level, hr, hr', hh, ← hk, he, slots]
    · simp [contents, level, hr, hr', hh, hk', ← hk]
  · simp [contents, level, hn]
  · simp [contents, level, hr', remaining_eq_nil, hrem]
  · intro r k'
    simp [contents, level, hp]
  · rintro j hj x (rfl | rfl | ⟨k', rfl⟩) <;> simp [hj]

end Steps

end Acdc
