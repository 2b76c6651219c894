import Acdc.Expiry

/-!
# Access of live objects

A call of `access_live_LClasses` visits `max_liveness` entries of the wheel from the entry of
the current clock on, `src/acdc.c:326–342`. Without delay these are all entries; with a
delay they are the collections that expire at the clock of the call and in the
`max_liveness - 1` ticks after it.
-/

namespace Acdc

open Inventory TimingWheel

variable {σ : Type}

/-- How often the call `m` of thread `i` has traversed a collection. -/
def traversals (i m : Nat) (b : Block) : List Event → Nat
  | [] => 0
  | .traversed j n _ b' :: log =>
    if j = i ∧ n = m ∧ b' = b then traversals i m b log + 1 else traversals i m b log
  | _ :: log => traversals i m b log

/-- Whether a call at clock `time` visits the collections that expire at `e`. -/
def Visits (g : GOptions) (time e : Nat) : Prop :=
  g.delay = 0 ∧ time < e ∨ g.delay ≠ 0 ∧ time ≤ e ∧ e < time + g.life

instance (g : GOptions) (time e : Nat) : Decidable (Visits g time e) :=
  inferInstanceAs (Decidable (_ ∨ _))

/-- The call `m` of thread `i` has begun. -/
def Called (i m : Nat) (log : List Event) : Prop :=
  (∃ time, .accessed i m time ∈ log) ∨ ∃ c b, .traversed i m c b ∈ log

/-- What the log says of the calls of `access_live_LClasses` of a thread. -/
structure Accesses (g : GOptions) (i : Nat) (s : Sys σ) : Prop where
  called_le : ∀ m, Called i m s.log → m ≤ (s.threads i).mc.collections
  called_lt : ∀ c, (s.threads i).pc = .placing c →
    ∀ m, Called i m s.log → m < (s.threads i).mc.collections
  accessed_lt : ∀ j rest, (s.threads i).pc = .accessing j rest →
    ∀ m time, .accessed i m time ∈ s.log → m < (s.threads i).mc.collections
  progress : ∀ j rest, (s.threads i).pc = .accessing j rest → j ≤ g.life ∧
    ∀ b, traversals i (s.threads i).mc.collections b s.log +
        rest.countP (fun node ↦ (s.classes node.lsClass).start = b) =
      (visited g (s.threads i).mc.time (s.threads i).mc.heapClass j).countP
        (fun node ↦ (s.classes node.lsClass).start = b)
  inserted_le : ∀ c b t l, .inserted i c b t l ∈ s.log → t.toNat ≤ (s.threads i).mc.time.toNat
  accessed : ∀ m time, .accessed i m time ∈ s.log →
    ∀ c b t l, .inserted i c b t l ∈ s.log → b.serial < m →
      1 ≤ l.toNat ∧ l.toNat ≤ g.life →
        t.toNat ≤ time.toNat ∧ traversals i m b s.log =
          if Visits g time.toNat (t.toNat + l.toNat) then 1 else 0

variable {g : GOptions} {R : Generator σ} {i j : Nat} {s s' : Sys σ}

/-! ### What a call visits -/

private theorem countP_entry {heapClass : HeapClass} {c : Slot} {k : Nat}
    (hsit : SitsIn heapClass c k) (h1 : heapClass.flatten.countP (·.lsClass = c) = 1) {j : Nat}
    {l : LClass} (hj : heapClass[j]? = some l) :
    l.countP (·.lsClass = c) = if j = k then 1 else 0 := by
  split
  · next hjk =>
    obtain ⟨l', hl', node, hn, hc⟩ := (hsit j).mpr hjk
    obtain rfl : l = l' := Option.some.inj (hj.symm.trans hl')
    have hpos : 0 < l.countP (·.lsClass = c) :=
      List.countP_pos_iff.mpr ⟨node, hn, by simpa using hc⟩
    have hle := (List.sublist_flatten_of_mem (List.mem_of_getElem? hj)).countP_le
      (p := fun node : LSCNode ↦ node.lsClass = c)
    omega
  · next hjk =>
    apply List.countP_eq_zero.mpr
    intro node hn hc
    exact hjk ((hsit j).mp ⟨l, hj, node, hn, by simpa using hc⟩)

private theorem countP_visited {heapClass : HeapClass} {c : Slot} {k : Nat} (time : UInt32)
    (hsit : SitsIn heapClass c k) (h1 : heapClass.flatten.countP (·.lsClass = c) = 1) (j : Nat) :
    (visited g time heapClass j).countP (·.lsClass = c) =
      (List.range j).countP (fun r ↦ heapClassGetIndex g time (UInt32.ofNat r) = k) := by
  induction j with
  | zero => rfl
  | succ j ih =>
    rw [visited_succ, List.countP_append, ih, List.range_succ, List.countP_append,
      List.countP_singleton, heapClassGetLClass]
    congr 1
    cases he : heapClass[heapClassGetIndex g time (UInt32.ofNat j)]? with
    | none =>
      obtain ⟨l, hl, -⟩ := (hsit k).mpr rfl
      have hne : heapClassGetIndex g time (UInt32.ofNat j) ≠ k := by
        intro hk
        rw [hk, hl] at he
        cases he
      simp [hne]
    | some l => simpa using countP_entry hsit h1 he

private theorem countP_getIndex (hM : 0 < g.maxLiveness.toInt)
    (hD : 0 ≤ g.deallocationDelay.toInt) {time : UInt32} (ht : time.toNat < 2 ^ 31) {e : Nat}
    (hlo : time.toNat + 1 ≤ e + g.delay) (hhi : e ≤ time.toNat + g.life) :
    (List.range g.life).countP (fun r ↦
      heapClassGetIndex g time (UInt32.ofNat r) = e % g.wheelSize) =
        if Visits g time.toNat e then 1 else 0 := by
  have hw := GOptions.wheelSize_eq hM hD
  have hlife := g.life_lt
  have hpos := GOptions.life_pos_iff.mpr hM
  have hle : g.life ≤ g.wheelSize := by omega
  have hcount : (List.range g.life).countP (fun r ↦
      heapClassGetIndex g time (UInt32.ofNat r) = e % g.wheelSize) =
        (List.range g.life).countP (fun r ↦ (time.toNat + r) % g.wheelSize = e % g.wheelSize) := by
    apply List.countP_congr
    intro r hr
    have hrl := List.mem_range.mp hr
    rw [heapClassGetIndex_ofNat (by omega)]
  rw [hcount]
  by_cases hdelay : g.delay = 0
  · -- every entry is visited, that of the current tick for the greatest lifetime
    have hv : Visits g time.toNat e := .inl ⟨hdelay, by omega⟩
    rw [if_pos hv]
    by_cases hlt : e < time.toNat + g.life
    · rw [countP_range_mod hle ⟨by omega, by omega⟩, if_pos hlt]
    · have he : e % g.wheelSize = time.toNat % g.wheelSize := by
        rw [show e = time.toNat + g.wheelSize by omega, Nat.add_mod_right]
      rw [he, countP_range_mod hle ⟨by omega, by omega⟩, if_pos (by omega)]
  · by_cases hge : time.toNat ≤ e
    · rw [countP_range_mod hle ⟨hge, by omega⟩]
      simp only [Visits, hdelay, hge, false_and, ne_eq, not_false_eq_true, true_and, false_or]
    · -- the collection has expired and waits for its deallocation
      have hv : ¬ Visits g time.toNat e := by
        rintro (h | h) <;> omega
      rw [← Nat.add_mod_right e, countP_range_mod hle ⟨by omega, by omega⟩, if_neg (by omega),
        if_neg hv]

private theorem countP_visited_life (hM : 0 < g.maxLiveness.toInt)
    (hD : 0 ≤ g.deallocationDelay.toInt) (hi : i < g.threads) (hs : Reachable g R s)
    (hu : NeverShares i s) {rest : List LSCNode} {k : Nat}
    (hpc : (s.threads i).pc = .accessing k rest) {c : Slot} {b : Block} {t l : UInt32}
    (he : .inserted i c b t l ∈ s.log) (hl : 1 ≤ l.toNat ∧ l.toNat ≤ g.life)
    (ht : t.toNat ≤ (s.threads i).mc.time.toNat) :
    (visited g (s.threads i).mc.time (s.threads i).mc.heapClass g.life).countP
        (fun node ↦ (s.classes node.lsClass).start = b) =
      if Visits g (s.threads i).mc.time.toNat (t.toNat + l.toNat) then 1 else 0 := by
  have hPu := hs.punctual hM hD hi hu
  have hS := hs.ownSlots hD hi hu
  have hO := hs.owned hD hi hu
  have hInv := hs.inv hD
  have hH := hs.history hD
  have hco {node : LSCNode} (hn : node ∈ bag (s.threads i).mc.heapClass) :
      CarvedOnce s node.lsClass :=
    hs.carvedOnce hD hi hu (hS.owner_of_kept (.linked node hn rfl))
  have hlive {node : LSCNode} (hn : node ∈ bag (s.threads i).mc.heapClass) :
      node.lsClass ∈ live s.log := (hO.held (.linked node hn rfl)).live hInv hi (hco hn)
  obtain ⟨hk, rfl⟩ | hd := hO.stage c b t l he
  · have hnow := now_le_of_kept he hl hPu hk
    simp only [Thread.now, hpc, Pc.inRemoval] at hnow
    obtain ⟨node, hn, rfl⟩ | ⟨node, hn, -⟩ := hk
    · have h1 := (localNodes_eq_one hInv hi (hco hn) hn (hO.counter node hn)).2
      have hsit := sitsIn_of_linked he hl hPu hM hD hn rfl
      rw [heapClassInsertIndex_lifetime] at hsit
      rw [← countP_getIndex hM hD (hs.clock_lt i) (by simpa using hnow) (by omega),
        ← countP_visited _ hsit h1]
      apply List.countP_congr
      intro node' hn'
      simp only [decide_eq_true_eq]
      exact ⟨hH.distinct (.of_live (hlive (mem_bag_of_mem_visited hn'))) (.of_live (hlive hn)),
        fun h ↦ by rw [h]⟩
    · simp [hpc] at hn
  · -- a collection that has been deallocated is not visited and has expired
    obtain ⟨x, hx⟩ := List.exists_mem_of_ne_nil _ hd
    obtain ⟨-, hx2, hx3⟩ := hPu.deallocated c b t l he hl x hx
    have hv : ¬ Visits g (s.threads i).mc.time.toNat (t.toNat + l.toNat) := by
      rintro (h | h) <;> omega
    rw [if_neg hv]
    apply List.countP_eq_zero.mpr
    intro node hn hb
    apply hd
    have hn := mem_bag_of_mem_visited hn
    rw [← hH.kept _ (hlive hn) (hco hn), of_decide_eq_true hb]

/-! ### What a move adds -/

theorem Move.accessed_cases (h : Move g R j s s') {m : Nat} {time : UInt32}
    (ha : .accessed i m time ∈ s'.log) : .accessed i m time ∈ s.log ∨
      i = j ∧ m = (s.threads i).mc.collections ∧ time = (s.threads i).mc.time ∧
        s'.log = .accessed i m time :: s.log ∧ (s'.threads i).pc = .accounting ∧
          ∃ k, (s.threads i).pc = .accessing k [] ∧ g.life ≤ k := by
  cases h with
  | endAccess k hpc hk =>
    rcases List.mem_cons.mp ha with ha | ha
    · cases ha
      exact .inr ⟨rfl, rfl, rfl, rfl, by simp, k, hpc, hk⟩
    · exact .inl ha
  | _ => exact .inl (by simpa using ha)

theorem Move.traversed_cases (h : Move g R j s s') {m : Nat} {c : Slot} {b : Block}
    (ht : .traversed i m c b ∈ s'.log) : .traversed i m c b ∈ s.log ∨
      i = j ∧ m = (s.threads i).mc.collections ∧
        ∃ k node rest, (s.threads i).pc = .accessing k (node :: rest) := by
  cases h with
  | traverse k node rest hpc =>
    rcases List.mem_cons.mp ht with ht | ht
    · cases ht
      exact .inr ⟨rfl, rfl, k, node, rest, hpc⟩
    · exact .inl ht
  | _ => exact .inl (by simpa using ht)

/-- Only the current call goes on. -/
theorem Move.called_cases (h : Move g R j s s') {m : Nat} (hc : Called i m s'.log) :
    Called i m s.log ∨ i = j ∧ m = (s.threads i).mc.collections ∧
      ∃ k rest, (s.threads i).pc = .accessing k rest := by
  obtain ⟨time, ha⟩ | ⟨c, b, ht⟩ := hc
  · obtain ha | ⟨hij, hm, -, -, -, k, hpc, -⟩ := h.accessed_cases ha
    · exact .inl (.inl ⟨time, ha⟩)
    · exact .inr ⟨hij, hm, k, [], hpc⟩
  · obtain ht | ⟨hij, hm, k, node, rest, hpc⟩ := h.traversed_cases ht
    · exact .inl (.inr ⟨c, b, ht⟩)
    · exact .inr ⟨hij, hm, k, _, hpc⟩

theorem Move.traversals_cases (h : Move g R j s s') (m : Nat) (b : Block) :
    traversals i m b s'.log = traversals i m b s.log ∨
      i = j ∧ m = (s.threads i).mc.collections ∧
        ∃ k node rest, (s.threads i).pc = .accessing k (node :: rest) := by
  cases h with
  | traverse k node rest hpc =>
    by_cases hm : j = i ∧ (s.threads j).mc.collections = m
    · obtain ⟨rfl, rfl⟩ := hm
      exact .inr ⟨rfl, rfl, k, node, rest, hpc⟩
    · left
      simp only [Sys.emit_log, Sys.put_log, traversals]
      rw [if_neg fun hc ↦ hm ⟨hc.1, hc.2.1⟩]
  | _ => exact .inl (by simp [traversals])

private theorem Move.collections_le (h : Move g R j s s') (i : Nat) :
    (s.threads i).mc.collections ≤ (s'.threads i).mc.collections := by
  by_cases hij : i = j
  · subst hij
    cases h <;> simp
  · rw [h.threads_of_ne hij]

private theorem traversals_eq_zero {m : Nat} {log : List Event} (h : ¬ Called i m log)
    (b : Block) : traversals i m b log = 0 := by
  induction log with
  | nil => rfl
  | cons e log ih =>
    have hc : ¬ Called i m log := by
      rintro (⟨time, ha⟩ | ⟨c, b', ht⟩)
      · exact h (.inl ⟨time, List.mem_cons_of_mem e ha⟩)
      · exact h (.inr ⟨c, b', List.mem_cons_of_mem e ht⟩)
    cases e with
    | traversed j n c b' =>
      simp only [traversals]
      rw [if_neg ?_]
      · exact ih hc
      · rintro ⟨rfl, rfl, -⟩
        exact h (.inr ⟨c, b', List.mem_cons_self⟩)
    | _ => exact ih hc

/-! ### Calls along a run -/

section Run

variable (hM : 0 < g.maxLiveness.toInt) (hD : 0 ≤ g.deallocationDelay.toInt)
  (hi : i < g.threads) (hj : j < g.threads)
include hD hi

private theorem Move.progress_self (hs : Reachable g R s) (hu : NeverShares i s)
    (hA : Accesses g i s) (h : Move g R i s s') {k : Nat} {rest : List LSCNode}
    (hpc' : (s'.threads i).pc = .accessing k rest) : k ≤ g.life ∧
      ∀ b, traversals i (s'.threads i).mc.collections b s'.log +
          rest.countP (fun node ↦ (s'.classes node.lsClass).start = b) =
        (visited g (s'.threads i).mc.time (s'.threads i).mc.heapClass k).countP
          (fun node ↦ (s'.classes node.lsClass).start = b) := by
  cases h with
  | insert c node cache k' rand hpc =>
    have hpc' : enterAccess g = .accessing k rest := by simpa using hpc'
    obtain he | he := enterAccess_cases g <;> rw [he] at hpc' <;> cases hpc'
    refine ⟨Nat.zero_le _, fun b ↦ ?_⟩
    have hz := traversals_eq_zero (fun hc ↦ Nat.lt_irrefl _ (hA.called_lt c hpc _ hc)) b
    simpa [traversals, visited] using hz
  | fetch c hpc => exact absurd hpc ((hs.ownSlots hD hi hu).notSharing c _)
  | traverse k' node rest' hpc =>
    obtain ⟨rfl, rfl⟩ : k' = k ∧ rest' = rest := by simpa using hpc'
    obtain ⟨hk, hp⟩ := hA.progress k' _ hpc
    refine ⟨hk, fun b ↦ ?_⟩
    have hb := hp b
    rw [List.countP_cons] at hb
    simp only [Sys.emit_log, Sys.put_log, Sys.emit_threads, Sys.put_threads, Function.update_self,
      Sys.emit_classes, Sys.put_classes, traversals, true_and, decide_eq_true_eq] at hb ⊢
    split at hb
    · next hst =>
      rw [if_pos hst]
      omega
    · next hst =>
      rw [if_neg hst]
      exact hb
  | nextLClass k' hpc hlt =>
    obtain ⟨rfl, rfl⟩ : k' + 1 = k ∧ heapClassGetLClass g _ _ k' = rest := by simpa using hpc'
    obtain ⟨-, hp⟩ := hA.progress k' _ hpc
    refine ⟨hlt, fun b ↦ ?_⟩
    have hb := hp b
    simp only [List.countP_nil, Nat.add_zero] at hb
    simp only [Sys.put_log, Sys.put_threads, Function.update_self, Sys.put_classes, visited_succ,
      List.countP_append, hb]
  | unreference =>
    simp only [Sys.emit_threads, Sys.put_threads, Function.update_self] at hpc'
    split at hpc' <;> cases hpc'
  | endRemove pc hpc hn he => obtain rfl | rfl := he <;> simp at hpc'
  | _ => simp at hpc'

private theorem Move.progress_other (hj : j < g.threads) (hij : i ≠ j) (hs : Reachable g R s)
    (hs' : Reachable g R s') (hu' : NeverShares i s') (hA : Accesses g i s)
    (h : Move g R j s s') {k : Nat} {rest : List LSCNode}
    (hpc' : (s'.threads i).pc = .accessing k rest) : k ≤ g.life ∧
      ∀ b, traversals i (s'.threads i).mc.collections b s'.log +
          rest.countP (fun node ↦ (s'.classes node.lsClass).start = b) =
        (visited g (s'.threads i).mc.time (s'.threads i).mc.heapClass k).countP
          (fun node ↦ (s'.classes node.lsClass).start = b) := by
  rw [h.threads_of_ne hij] at hpc' ⊢
  obtain ⟨hk, hp⟩ := hA.progress k rest hpc'
  refine ⟨hk, fun b ↦ ?_⟩
  have hInv := hs.inv hD
  have hstart (nodes : List LSCNode) (hsub : ∀ node ∈ nodes, node ∈ visited g
      (s.threads i).mc.time (s.threads i).mc.heapClass k) :
      nodes.countP (fun node ↦ (s'.classes node.lsClass).start = b) =
        nodes.countP (fun node ↦ (s.classes node.lsClass).start = b) := by
    apply List.countP_congr
    intro node hn
    have hn := mem_bag_of_mem_visited (hsub node hn)
    have hco := hs'.carvedOnce hD hi hu'
      ((hs.ownSlots hD hi (hu'.of_move h)).owner_of_kept (.linked node hn rfl))
    have hr := mem_targets_of_refs (mem_refs_of_heapClass hi hn)
    rw [h.start_eq hD hj hInv hco (hInv.counted.of_target (hco.of_move h) hr).1]
  have ht : traversals i (s.threads i).mc.collections b s'.log = _ :=
    (h.traversals_cases _ b).resolve_right fun hc ↦ hij hc.1
  rw [ht, hstart _ fun _ h ↦ h, hstart rest ((hs.local i).accessing k rest hpc').subset]
  exact hp b

include hj

private theorem Move.called (hs : Reachable g R s) (hA : Accesses g i s) (hu : NeverShares i s)
    (h : Move g R j s s') :
    (∀ m, Called i m s'.log → m ≤ (s'.threads i).mc.collections) ∧
      (∀ c, (s'.threads i).pc = .placing c →
        ∀ m, Called i m s'.log → m < (s'.threads i).mc.collections) ∧
      ∀ k rest, (s'.threads i).pc = .accessing k rest →
        ∀ m time, .accessed i m time ∈ s'.log → m < (s'.threads i).mc.collections := by
  have hle := h.collections_le i
  refine ⟨fun m hm ↦ ?_, fun c hpc' m hm ↦ ?_, fun k rest hpc' m time hm ↦ ?_⟩
  · obtain hm | ⟨-, rfl, -⟩ := h.called_cases hm
    · exact Nat.le_trans (hA.called_le m hm) hle
    · exact hle
  · by_cases hij : i = j
    · subst hij
      have hl : (s.threads i).pc = .looping := by
        by_contra hl
        exact h.ne_placing hl c hpc'
      obtain hm | ⟨-, -, k, rest, hpc⟩ := h.called_cases hm
      · have hmle := hA.called_le m hm
        cases h with
        | create => simpa using Nat.lt_succ_of_le hmle
        | _ => simp_all
      · simp [hl] at hpc
    · obtain hm | ⟨he, -⟩ := h.called_cases hm
      · rw [h.threads_of_ne hij] at hpc' ⊢
        exact hA.called_lt c hpc' m hm
      · exact absurd he hij
  · obtain ha | ⟨-, -, -, -, hacc, -⟩ := h.accessed_cases hm
    · by_cases hij : i = j
      · subst hij
        apply Nat.lt_of_lt_of_le _ hle
        cases h with
        | insert c node cache k' rand hpc => exact hA.called_lt c hpc m (.inl ⟨time, ha⟩)
        | fetch c hpc => exact absurd hpc ((hs.ownSlots hD hi hu).notSharing c _)
        | traverse k' node rest' hpc => exact hA.accessed_lt k' _ hpc m time ha
        | nextLClass k' hpc => exact hA.accessed_lt k' _ hpc m time ha
        | unreference =>
          simp only [Sys.emit_threads, Sys.put_threads, Function.update_self] at hpc'
          split at hpc' <;> cases hpc'
        | endRemove pc hpc hn he => obtain rfl | rfl := he <;> simp at hpc'
        | _ => simp at hpc'
      · rw [h.threads_of_ne hij] at hpc' ⊢
        exact hA.accessed_lt k rest hpc' m time ha
    · simp [hacc] at hpc'

include hM

private theorem Move.accessed (hs : Reachable g R s) (hA : Accesses g i s)
    (hu : NeverShares i s) (h : Move g R j s s') {m : Nat} {time : UInt32}
    (ha : .accessed i m time ∈ s'.log) {c : Slot} {b : Block} {t l : UInt32}
    (he : .inserted i c b t l ∈ s'.log) (hm : b.serial < m)
    (hl : 1 ≤ l.toNat ∧ l.toNat ≤ g.life) :
    t.toNat ≤ time.toNat ∧ traversals i m b s'.log =
      if Visits g time.toNat (t.toNat + l.toNat) then 1 else 0 := by
  have hP := hs.placement hD
  obtain ha' | ⟨rfl, rfl, rfl, hlog, -, k, hpc, hk⟩ := h.accessed_cases ha
  · obtain he' | ⟨rfl, hpc, rfl, -, -⟩ := h.inserted_cases he
    · obtain ht | ⟨rfl, rfl, k, node, rest, hpc⟩ := h.traversals_cases (i := i) m b
      · rw [ht]
        exact hA.accessed m time ha' c b t l he' hm hl
      · exact absurd (hA.accessed_lt k _ hpc _ time ha') (Nat.lt_irrefl _)
    · -- the collection is placed after all calls of the log
      have hco := hs.carvedOnce hD hi hu ((hs.ownSlots hD hi hu).owner_of_placing hpc)
      obtain ⟨hc, hst⟩ := hP.placing i hi c hpc
      have hlt := hA.called_lt c hpc m (.inl ⟨time, ha'⟩)
      rw [(hst hco).1] at hm
      change (s.threads i).placed < m at hm
      omega
  · rw [hlog] at he ⊢
    have he : .inserted i c b t l ∈ s.log := by simpa using he
    have ht := hA.inserted_le c b t l he
    obtain ⟨hkle, hp⟩ := hA.progress k [] hpc
    obtain rfl : k = g.life := Nat.le_antisymm hkle hk
    have hb := hp b
    rw [List.countP_nil, Nat.add_zero,
      countP_visited_life hM hD hi hs hu hpc he hl ht] at hb
    exact ⟨ht, hb⟩

end Run

/-- What the log says of the calls of a thread that never shares. -/
theorem Reachable.accesses (hM : 0 < g.maxLiveness.toInt) (hD : 0 ≤ g.deallocationDelay.toInt)
    (hi : i < g.threads) (hs : Reachable g R s) (hu : NeverShares i s) : Accesses g i s := by
  induction hs with
  | start => constructor <;> simp [runAcdc, Called]
  | step j hs hj h ih =>
    have hm := step_move h
    have hs' := Reachable.step j hs hj h
    have hu' := hu.of_move hm
    have hA := ih hu'
    obtain ⟨h1, h2, h3⟩ := hm.called hD hi hj hs hA hu'
    refine ⟨h1, h2, h3, fun k rest hpc ↦ ?_, fun c b t l he ↦ ?_,
      fun m time ha c b t l he hlt hl ↦ hm.accessed hM hD hi hj hs hA hu' ha he hlt hl⟩
    · by_cases hij : i = j
      · subst hij
        exact hm.progress_self hD hi hs hu' hA hpc
      · exact hm.progress_other hD hi hj hij hs hs' hu hA hpc
    · have hle := hm.time_le hs' hs i
      obtain he | ⟨rfl, -, -, rfl, -⟩ := hm.inserted_cases he
      · exact Nat.le_trans (hA.inserted_le c b t l he) hle
      · exact hle

/-! ### Objects are accessed while they are live -/

/-- The call `m` at clock `time` traverses the collection exactly while it is live. -/
def AccessedWhileLive (i m : Nat) (time : UInt32) (b : Block) (t l : UInt32)
    (log : List Event) : Prop :=
  (t.toNat ≤ time.toNat → time.toNat < t.toNat + l.toNat → traversals i m b log = 1) ∧
    (t.toNat + l.toNat ≤ time.toNat → traversals i m b log = 0)

/-- A call made after the insertion of a collection traverses it exactly while it is live, if
and only if there is no delay or the call is neither at the tick of expiry nor
`max_liveness` ticks before. -/
theorem accessedWhileLive_iff (hM : 0 < g.maxLiveness.toInt)
    (hD : 0 ≤ g.deallocationDelay.toInt) (hi : i < g.threads) (hs : Reachable g R s)
    (hu : NeverShares i s) {c : Slot} {b : Block} {t l time : UInt32} {m : Nat}
    (he : .inserted i c b t l ∈ s.log) (hl : 1 ≤ l.toNat ∧ l.toNat ≤ g.life)
    (ha : .accessed i m time ∈ s.log) (hm : b.serial < m) :
    AccessedWhileLive i m time b t l s.log ↔
      g.delay = 0 ∨ time.toNat ≠ t.toNat + l.toNat ∧
        time.toNat + g.life ≠ t.toNat + l.toNat := by
  have hpos := GOptions.life_pos_iff.mpr hM
  obtain ⟨ht, hc⟩ := (hs.accesses hM hD hi hu).accessed m time ha c b t l he hm hl
  rw [AccessedWhileLive, hc]
  by_cases hv : Visits g time.toNat (t.toNat + l.toNat)
  · rw [if_pos hv]
    rcases hv with hv | hv <;> omega
  · rw [if_neg hv]
    simp only [Visits, not_or, not_and_or] at hv
    omega

instance (i m : Nat) (time : UInt32) (b : Block) (t l : UInt32) (log : List Event) :
    Decidable (AccessedWhileLive i m time b t l log) :=
  inferInstanceAs (Decidable (_ ∧ _))

/-- Options of one thread that accesses its objects. -/
def accessOptions (maxLiveness deallocationDelay : Int32) : GOptions :=
  { smallOptions 1 maxLiveness deallocationDelay with accessLiveObjects := 1 }

/-- Two lifetimes and a delay of one tick: the second call traverses the first collection. -/
theorem accessedWhileLive_iff_two_lifetimes :
    ∃ s, Reachable (accessOptions 2 1) (schrage (accessOptions 2 1)) s ∧
      traversals 0 2 ⟨0, 0⟩ s.log = 1 ∧ AccessedWhileLive 0 2 1 ⟨0, 0⟩ 0 2 s.log := by
  obtain ⟨s, hs, h1, he, ha⟩ := exists_of_endsIn (accessOptions 2 1)
    (schrage (accessOptions 2 1)) (List.replicate 15 0)
    (fun s ↦ traversals 0 2 ⟨0, 0⟩ s.log = 1 ∧ .inserted 0 ⟨0, 0⟩ ⟨0, 0⟩ 0 2 ∈ s.log ∧
      .accessed 0 2 1 ∈ s.log) (by decide +kernel) (by decide)
  have hiff := accessedWhileLive_iff (by decide) (by decide) (by decide) hs
    (hs.neverShares rfl 0) he (by decide) ha (by decide)
  exact ⟨s, hs, h1, hiff.mpr (by decide)⟩

/-- One lifetime and a delay of one tick: the first call misses the new collection. -/
theorem not_forall_accessedWhileLive :
    ¬ ∀ (g : GOptions) (s : Sys Int32) (i m : Nat) (c : Slot) (b : Block) (t l time : UInt32),
      0 < g.maxLiveness.toInt → 0 ≤ g.deallocationDelay.toInt → g.accessLiveObjects ≠ 0 →
      g.sharedObjects = 0 → i < g.threads → Reachable g (schrage g) s →
      .inserted i c b t l ∈ s.log → 1 ≤ l.toNat ∧ l.toNat ≤ g.life →
      .accessed i m time ∈ s.log → b.serial < m → AccessedWhileLive i m time b t l s.log := by
  intro h
  obtain ⟨s, hs, hn, he, ha⟩ := exists_of_endsIn (accessOptions 1 1)
    (schrage (accessOptions 1 1)) (List.replicate 6 0)
    (fun s ↦ ¬ AccessedWhileLive 0 1 0 ⟨0, 0⟩ 0 1 s.log ∧
      .inserted 0 ⟨0, 0⟩ ⟨0, 0⟩ 0 1 ∈ s.log ∧ .accessed 0 1 0 ∈ s.log)
    (by decide +kernel) (by decide)
  exact hn (h (accessOptions 1 1) s 0 1 _ _ _ _ _ (by decide) (by decide) (by decide) rfl
    (by decide) hs he (by decide) ha (by decide))

end Acdc
