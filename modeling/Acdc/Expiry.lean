import Acdc.Sharing
import Acdc.Unshared

/-!
# Exact expiry

The heap-class of a thread that never shares is a timing wheel: a collection inserted at
clock `t` with liveness `l` is due when the clock becomes `t + l + deallocation_delay`. It
waits in the entry of its insertion and is deallocated by the call of `heap_class_remove`
at that clock.
-/

namespace Acdc

open Inventory TimingWheel

variable {σ : Type}

/-- The next clock at which a thread removes collections. -/
def Thread.now (th : Thread σ) : Nat :=
  if th.pc.inRemoval then th.mc.time.toNat else th.mc.time.toNat + 1

/-- The collection of a node, inserted with one of the lifetimes of the wheel, is due at `d`. -/
def Due (g : GOptions) (i : Nat) (s : Sys σ) (node : LSCNode) (d : Nat) : Prop :=
  ∃ c t l, .inserted i c (s.classes node.lsClass).start t l ∈ s.log ∧
    (1 ≤ l.toNat ∧ l.toNat ≤ g.life) ∧ d = t.toNat + l.toNat + g.delay

/-- The heap-class is a timing wheel, and collections are deallocated when they are due. -/
structure Punctual (g : GOptions) (i : Nat) (s : Sys σ) : Prop where
  wheel : Fits (Due g i s) g.delay (s.threads i).now g.wheelSize (s.threads i).mc.heapClass
  dying : ∀ node, (s.threads i).pc = .deallocating node →
    ∀ d, Due g i s node d → d = (s.threads i).mc.time.toNat
  deallocated : ∀ c b t l, .inserted i c b t l ∈ s.log → 1 ≤ l.toNat ∧ l.toNat ≤ g.life →
    ∀ x ∈ deallocations s.log b, x.1 = i ∧ x.2.toNat = t.toNat + l.toNat + g.delay ∧
      x.2.toNat ≤ (s.threads i).mc.time.toNat

variable {g : GOptions} {R : Generator σ} {i j : Nat} {s s' : Sys σ}

/-- The memory of a live collection stays the same. -/
theorem Move.start_eq (hD : 0 ≤ g.deallocationDelay.toInt) (hi : i < g.threads)
    (hInv : Inv g s) (h : Move g R i s s') {c : Slot} (ho : CarvedOnce s' c)
    (hc : c ∈ live s.log) : (s'.classes c).start = (s.classes c).start := by
  have h' := h
  have hInv' := h.inv (GOptions.hasWheel hD) hi hInv
  cases h with
  | create p₀ p rand c' cache k hpc =>
    have hne : c ≠ c' := by
      rintro rfl
      exact hInv'.notMem_live ho rfl hc
    simp [Function.update_of_ne hne]
  | deallocate => rfl
  | _ => exact (h'.quiet (by simp [*]) (by simp [*])).start c

private theorem Due.of_move (hD : 0 ≤ g.deallocationDelay.toInt) (hi : i < g.threads)
    (hj : j < g.threads) (hInv : Inv g s) (hH : History s) (hP : Placement g s)
    (hS : OwnSlots i s) (hO : Owned i s) (ho : ∀ c : Slot, c.owner = i → CarvedOnce s' c)
    (h : Move g R j s s') {node : LSCNode} (hk : Kept s i node.lsClass) {d : Nat}
    (hd : Due g i s' node d) : Due g i s node d := by
  obtain ⟨c, t, l, he, hl⟩ := hd
  have hco := ho _ (hS.owner_of_kept hk)
  rw [h.start_eq hD hj hInv hco ((hO.held hk).live hInv hi (hco.of_move h))] at he
  obtain hm | ⟨rfl, hpc, hb, -, -⟩ := h.inserted_cases he
  · exact ⟨c, t, l, hm, hl⟩
  · obtain ⟨t', l', hm⟩ := hO.inserted _ hk
    have hcp := (ho c (hS.owner_of_placing hpc)).of_move h
    rw [hb] at hm
    exact absurd hm (hP.not_inserted hInv hH hj hpc hcp i _ t' l')

/-- The clock of a thread does not go back. -/
theorem Move.time_le (hs' : Reachable g R s') (hs : Reachable g R s)
    (h : Move g R j s s') (i : Nat) :
    (s.threads i).mc.time.toNat ≤ (s'.threads i).mc.time.toNat := by
  rw [(hs.local i).clock, (hs'.local i).clock]
  by_cases hij : i = j
  · subst hij
    cases h <;> simp
  · rw [h.threads_of_ne hij]

private theorem time_tick (hs : Reachable g R s) (hs' : Reachable g R s')
    (hruns : (s'.threads i).runs = (s.threads i).runs + 1) :
    (s'.threads i).mc.time.toNat = (s.threads i).mc.time.toNat + 1 := by
  rw [(hs.local i).clock, (hs'.local i).clock, hruns]

private theorem Move.dying_cases (h : Move g R i s s') {node : LSCNode}
    (hpc : (s'.threads i).pc = .deallocating node) :
    (s.threads i).pc = .removing ∧ (s'.threads i).mc.time = (s.threads i).mc.time ∧
      ∃ rest, (s.threads i).mc.heapClass[heapClassRemoveIndex g (s.threads i).mc.time]? =
        some (node :: rest) := by
  cases h with
  | insert | fetch =>
    exact absurd (by simpa using hpc) (enterAccess_ne g (.deallocating node) nofun nofun)
  | unreference node' rest hpc' hn =>
    simp only [Sys.emit_threads, Sys.put_threads, Function.update_self] at hpc
    split at hpc
    · cases hpc
      exact ⟨hpc', by simp, rest, hn⟩
    · cases hpc
  | endRemove pc hpc' hn he => obtain rfl | rfl := he <;> simp at hpc
  | _ => simp at hpc

section Wheel

variable (hM : 0 < g.maxLiveness.toInt) (hD : 0 ≤ g.deallocationDelay.toInt)
  (hi : i < g.threads)
include hM hD hi

private theorem Move.wheel_self (hs : Reachable g R s) (hs' : Reachable g R s')
    (hu : NeverShares i s) (h : Move g R i s s')
    (hw : Fits (Due g i s') g.delay (s.threads i).now g.wheelSize (s.threads i).mc.heapClass) :
    Fits (Due g i s') g.delay (s'.threads i).now g.wheelSize (s'.threads i).mc.heapClass := by
  have hmod := heapClassRemoveIndex_add_delay hM hD (s.threads i).mc.time
  have h' := h
  cases h with
  | insert c node cache k rand hpc hsh ht hl =>
    have hP := hs.placement hD
    have hco := hs.carvedOnce hD hi hu ((hs.ownSlots hD hi hu).owner_of_placing hpc)
    obtain ⟨hst, hlt⟩ := (hP.placing i hi c hpc).2 hco
    have hnow : (s.threads i).now = (s.threads i).mc.time.toNat + 1 := by
      simp [Thread.now, hpc, Pc.inRemoval]
    have hwheel := GOptions.wheelSize_eq hM hD
    rw [hnow] at hw
    simp only [Thread.now, Sys.emit_threads, Sys.put_threads, Function.update_self,
      inRemoval_enterAccess]
    apply hw.insert
    intro d hd
    -- the only insertion of the new collection is this one
    obtain ⟨c', t, l, he, hll, rfl⟩ := hd
    have he' := h'.inserted_cases he
    simp only [Sys.emit_classes, Sys.put_classes, Sys.putClass_classes,
      Function.update_self] at he'
    obtain hm | ⟨-, -, -, rfl, rfl⟩ := he'
    · exact absurd hm (hP.not_inserted (hs.inv hD) (hs.history hD) hi hpc hco i c' t l)
    · rw [hlt, heapClassInsertIndex_lifetime, Nat.mod_add_mod]
      exact ⟨rfl, by omega, by omega⟩
  | fetch c hpc => exact absurd hpc ((hs.ownSlots hD hi hu).notSharing c _)
  | tick hpc =>
    have ht := time_tick (i := i) hs hs' (by simp)
    simp only [Sys.put_threads, Function.update_self] at ht
    simp only [Thread.now, hpc, Pc.inRemoval] at hw
    simpa [Thread.now, Pc.inRemoval, ht] using hw
  | unreference node rest hpc hn =>
    have hp : (if (s.classes node.lsClass).referenceCounter - 1 = 0 then Pc.deallocating node
        else Pc.recycling node).inRemoval = true := by
      split <;> rfl
    simp only [Thread.now, hpc, Pc.inRemoval] at hw
    simpa [Thread.now, hp] using hw.tail hn
  | endRemove pc hpc hn he =>
    simp only [Thread.now, hpc, Pc.inRemoval] at hw
    have ha := hw.advance hn hmod
    obtain rfl | rfl := he <;> simpa [Thread.now, Pc.inRemoval] using ha
  | _ => simpa [Thread.now, Pc.inRemoval, *] using hw

private theorem Move.punctual (hj : j < g.threads) (hs : Reachable g R s)
    (hs' : Reachable g R s') (hu' : NeverShares i s') (h : Move g R j s s')
    (hPu : Punctual g i s) : Punctual g i s' := by
  have hInv := hs.inv hD
  have hH := hs.history hD
  have hP := hs.placement hD
  have hu := hu'.of_move h
  have hS := hs.ownSlots hD hi hu
  have hO := hs.owned hD hi hu
  have ho (c : Slot) (hc : c.owner = i) : CarvedOnce s' c := hs'.carvedOnce hD hi hu' hc
  have ho' (c : Slot) (hc : c.owner = i) : CarvedOnce s c := (ho c hc).of_move h
  have hdue {node : LSCNode} (hk : Kept s i node.lsClass) {d : Nat} (hd : Due g i s' node d) :
      Due g i s node d := hd.of_move hD hi hj hInv hH hP hS hO ho h hk
  refine ⟨?_, fun node hpc d hd ↦ ?_, fun c b t l he hl x hx ↦ ?_⟩
  · have hw := hPu.wheel.mono fun node hn d hd ↦ hdue (.linked node hn rfl) hd
    by_cases hij : i = j
    · subst hij
      exact h.wheel_self hM hD hi hs hs' hu hw
    · rw [h.threads_of_ne hij]
      exact hw
  · by_cases hij : i = j
    · subst hij
      obtain ⟨hpc', ht, rest, hn⟩ := h.dying_cases hpc
      have hk : Kept s i node.lsClass :=
        .linked node (mem_bag.mpr ⟨_, List.mem_of_getElem? hn, List.mem_cons_self⟩) rfl
      have hnow : (s.threads i).now = (s.threads i).mc.time.toNat := by
        simp [Thread.now, hpc', Pc.inRemoval]
      have hw := wheelSize_pos hM hD
      rw [ht]
      exact hPu.wheel.due_eq hn List.mem_cons_self
        (heapClassRemoveIndex_add_delay hM hD _) ⟨by omega, by omega⟩ (hdue hk hd)
    · rw [h.threads_of_ne hij] at hpc ⊢
      exact hPu.dying node hpc d (hdue (.dying node hpc rfl) hd)
  · have hle := h.time_le hs' hs i
    obtain hm | ⟨hji, hpc, rfl, -, -⟩ := h.inserted_cases he
    · obtain hb | ⟨node, hpc, rfl, hb⟩ := h.deallocations_cases b
      · obtain ⟨h1, h2, h3⟩ := hPu.deallocated c b t l hm hl x (hb ▸ hx)
        exact ⟨h1, h2, by omega⟩
      · obtain rfl := hO.deallocator hInv hH hP hi hj hS ho' hpc hm
        rw [hb] at hx
        rcases List.mem_cons.mp hx with rfl | hx
        · have hd := hPu.dying node hpc _ ⟨c, t, l, hm, hl, rfl⟩
          exact ⟨rfl, hd.symm, hle⟩
        · obtain ⟨h1, h2, h3⟩ := hPu.deallocated c _ t l hm hl x hx
          exact ⟨h1, h2, by omega⟩
    · -- a collection that has just been placed
      subst hji
      have hco := ho' c (hS.owner_of_placing hpc)
      have hlive := (hInv.counted.of_created hco (mem_created_of_placing hj hpc)).1
      obtain hb | ⟨node, hpc', -⟩ := h.deallocations_cases (s.classes c).start
      · rw [hb, hH.kept c hlive hco] at hx
        cases hx
      · simp [hpc] at hpc'

/-- A thread that never shares is punctual in every reachable state. -/
theorem Reachable.punctual (hs : Reachable g R s) (hu : NeverShares i s) : Punctual g i s := by
  induction hs with
  | start =>
    constructor
    · exact Fits.empty _ _ _ _
    · simp [runAcdc]
    · simp [runAcdc]
  | step j hs hj h ih =>
    have hm := step_move h
    exact hm.punctual hM hD hi hj hs (.step j hs hj h) hu (ih (hu.of_move hm))

end Wheel

/-! ### Progress of a removal -/

/-- The counter of a collection about to be deallocated is zero. -/
theorem counter_of_dying (hInv : Inv g s) (hi : i < g.threads) {node : LSCNode}
    (ho : CarvedOnce s node.lsClass) (hpc : (s.threads i).pc = .deallocating node) :
    (s.classes node.lsClass).referenceCounter = 0 := by
  obtain ⟨hl, hc, ht⟩ := hInv.counted.of_dying ho (mem_dying_of_deallocating hi hpc)
  have hk : references (s.classes node.lsClass) = _ := hInv.counted.count_eq _ hl ho hc
  rw [Multiset.count_eq_zero.mpr ht] at hk
  exact UInt64.toNat_inj.mp hk

private theorem step_of_removal (hInv : Inv g s) (hi : i < g.threads) (R : Generator σ)
    (ho : ∀ node, (s.threads i).pc = .deallocating node → CarvedOnce s node.lsClass)
    (hr : (s.threads i).pc.inRemoval = true)
    (hn : (s.threads i).pc = .removing →
      (s.threads i).mc.heapClass[heapClassRemoveIndex g (s.threads i).mc.time]? ≠ some [])
    (hlt : heapClassRemoveIndex g (s.threads i).mc.time < (s.threads i).mc.heapClass.length) :
    ∃ s', step g R i s = .ok s' := by
  unfold step
  cases hpc : (s.threads i).pc with
  | removing =>
    have hn := hn hpc
    rw [List.getElem?_eq_getElem hlt] at hn
    cases hl : (s.threads i).mc.heapClass[heapClassRemoveIndex g (s.threads i).mc.time] with
    | nil => exact absurd (congrArg some hl) hn
    | cons node rest => simp [remove, List.getElem?_eq_getElem hlt, hl]
  | deallocating node =>
    have hl := (hInv.counted.of_dying (ho node hpc) (mem_dying_of_deallocating hi hpc)).1
    obtain ⟨mc, hmc⟩ := deallocateLSClass_eq_ok g (s.threads i).mc node.lsClass
      (hInv.built _ hl) (counter_of_dying hInv hi (ho node hpc) hpc)
    simp [deallocate, hmc, bind, Except.bind, pure, Except.pure]
  | recycling node => exact ⟨_, rfl⟩
  | _ => simp [hpc, Pc.inRemoval] at hr

/-! ### Exact expiry -/

/-- A collection inserted at clock `t` with liveness `l` is deallocated once, by the removal
at `t + l + deallocation_delay`, and waits in one entry until then. The removal at that clock
does not stop before it has deallocated the collection. -/
structure ExactExpiry (g : GOptions) (R : Generator σ) (i : Nat) (s : Sys σ) (c : Slot)
    (b : Block) (t l : UInt32) : Prop where
  notBefore : (s.threads i).mc.time.toNat < t.toNat + l.toNat + g.delay →
    deallocations s.log b = []
  once : ∀ x ∈ deallocations s.log b, deallocations s.log b = [x] ∧ x.1 = i ∧
    x.2.toNat = t.toNat + l.toNat + g.delay
  notAfter : t.toNat + l.toNat + g.delay < (s.threads i).mc.time.toNat ∨
    t.toNat + l.toNat + g.delay = (s.threads i).mc.time.toNat ∧
      (s.threads i).pc.inRemoval = false → deallocations s.log b ≠ []
  proceeds : (s.threads i).mc.time.toNat = t.toNat + l.toNat + g.delay →
    (s.threads i).pc.inRemoval = true → deallocations s.log b = [] →
      ∃ s', step g R i s = .ok s'
  waits : deallocations s.log b = [] → (s.classes c).start = b ∧
    (SitsIn (s.threads i).mc.heapClass c
        (heapClassInsertIndex g t (l + g.deallocationDelay.toUInt32)) ∧
      localNodes s i c = 1 ∨ ∃ node, (s.threads i).pc = .deallocating node ∧
        node.lsClass = c ∧ (s.threads i).mc.time.toNat = t.toNat + l.toNat + g.delay)
  inBounds : (s.threads i).mc.heapClass.length = g.life + g.delay ∧ ∀ time k : UInt32,
    heapClassInsertIndex g time k < g.life + g.delay ∧
      heapClassGetIndex g time k < g.life + g.delay ∧
        heapClassRemoveIndex g time < g.life + g.delay

section Waiting

variable {c : Slot} {t l : UInt32} (he : .inserted i c (s.classes c).start t l ∈ s.log)
  (hl : 1 ≤ l.toNat ∧ l.toNat ≤ g.life)
include he hl

private theorem due_of_inserted {node : LSCNode} (hc : node.lsClass = c) :
    Due g i s node (t.toNat + l.toNat + g.delay) := by
  subst hc
  exact ⟨_, t, l, he, hl, rfl⟩

variable (hPu : Punctual g i s)
include hPu

/-- A collection that is kept is due at the next removal or later. -/
theorem now_le_of_kept (hk : Kept s i c) :
    (s.threads i).now ≤ t.toNat + l.toNat + g.delay := by
  cases hk with
  | linked node hn hc =>
    obtain ⟨ls, hls, hmem⟩ := mem_bag.mp hn
    obtain ⟨k, hk⟩ := List.getElem?_of_mem hls
    exact (hPu.wheel.entry k ls hk node hmem _ (due_of_inserted he hl hc)).2.1
  | dying node hpc hc =>
    rw [hPu.dying node hpc _ (due_of_inserted he hl hc)]
    simp [Thread.now, hpc, Pc.inRemoval]

private theorem entry_eq {j k : Nat} {ls : LClass} {node : LSCNode}
    (hj : (s.threads i).mc.heapClass[j]? = some ls) (hn : node ∈ ls) (hc : node.lsClass = c)
    (hk : k < g.wheelSize)
    (hd : (k + g.delay) % g.wheelSize = (t.toNat + l.toNat + g.delay) % g.wheelSize) : j = k :=
  hPu.wheel.entry_unique hj hn (due_of_inserted he hl hc) hk hd

variable (hM : 0 < g.maxLiveness.toInt) (hD : 0 ≤ g.deallocationDelay.toInt)
include hM hD

/-- A collection that a node leads to sits in the entry of its insertion. -/
theorem sitsIn_of_linked {node : LSCNode}
    (hn : node ∈ bag (s.threads i).mc.heapClass) (hc : node.lsClass = c) :
    SitsIn (s.threads i).mc.heapClass c
      (heapClassInsertIndex g t (l + g.deallocationDelay.toUInt32)) := by
  rw [heapClassInsertIndex_lifetime]
  have hlt := Nat.mod_lt (t.toNat + l.toNat) (wheelSize_pos hM hD)
  intro j
  constructor
  · rintro ⟨ls, hj, node', hn', hc'⟩
    exact entry_eq he hl hPu hj hn' hc' hlt (Nat.mod_add_mod ..)
  · rintro rfl
    obtain ⟨ls, hls, hmem⟩ := mem_bag.mp hn
    obtain ⟨k, hk⟩ := List.getElem?_of_mem hls
    rw [← entry_eq he hl hPu hk hmem hc hlt (Nat.mod_add_mod ..)]
    exact ⟨ls, hk, node, hmem, hc⟩

private theorem removal_ne_nil (hk : Kept s i c)
    (ht : (s.threads i).mc.time.toNat = t.toNat + l.toNat + g.delay)
    (hpc : (s.threads i).pc = .removing) :
    (s.threads i).mc.heapClass[heapClassRemoveIndex g (s.threads i).mc.time]? ≠ some [] := by
  cases hk with
  | linked node hn hc =>
    obtain ⟨ls, hls, hmem⟩ := mem_bag.mp hn
    obtain ⟨k, hk⟩ := List.getElem?_of_mem hls
    have hr := heapClassRemoveIndex_add_delay hM hD (s.threads i).mc.time
    rw [ht] at hr
    rw [← entry_eq he hl hPu hk hmem hc (heapClassRemoveIndex_lt hM hD _) hr, hk]
    intro hnil
    cases hnil
    cases hmem
  | dying node hd => simp [hpc] at hd

end Waiting

/-- Exact expiry without sharing, at any number of threads and in any interleaving. -/
theorem exactExpiry_of_inserted (hM : 0 < g.maxLiveness.toInt)
    (hD : 0 ≤ g.deallocationDelay.toInt) (hi : i < g.threads) (hs : Reachable g R s)
    (hu : NeverShares i s) {c : Slot} {b : Block} {t l : UInt32}
    (he : .inserted i c b t l ∈ s.log) (hl : 1 ≤ l.toNat ∧ l.toNat ≤ g.life) :
    ExactExpiry g R i s c b t l := by
  have hPu := hs.punctual hM hD hi hu
  have hS := hs.ownSlots hD hi hu
  have hO := hs.owned hD hi hu
  have hInv := hs.inv hD
  have ho (c : Slot) (hc : c.owner = i) : CarvedOnce s c := hs.carvedOnce hD hi hu hc
  have hsize := GOptions.wheelSize_eq hM hD
  have hkept (hz : deallocations s.log b = []) : Kept s i c ∧ (s.classes c).start = b :=
    (hO.stage c b t l he).resolve_right (not_not.mpr hz)
  refine ⟨fun hlt ↦ ?_, fun x hx ↦ ?_, fun hgt hz ↦ ?_, fun ht hr hz ↦ ?_, fun hz ↦ ?_,
    (hInv.wheel i).trans hsize, fun time k ↦ ?_⟩
  · by_contra hne
    obtain ⟨x, hx⟩ := List.exists_mem_of_ne_nil _ hne
    have hd := hPu.deallocated c b t l he hl x hx
    omega
  · have hd := hPu.deallocated c b t l he hl x hx
    refine ⟨?_, hd.1, hd.2.1⟩
    obtain ⟨j, d, ha, hb⟩ := (hs.placement hD).built i c b t l he
    have honce := (hs.history hD).once j c d ha (ho c (hS.inserted c b t l he))
    rw [hb] at honce
    obtain ⟨y, hy⟩ := List.length_eq_one_iff.mp
      (Nat.le_antisymm honce (List.length_pos_of_mem hx))
    rw [hy] at hx ⊢
    rw [List.mem_singleton.mp hx]
  · obtain ⟨hk, rfl⟩ := hkept hz
    have hnow := now_le_of_kept he hl hPu hk
    unfold Thread.now at hnow
    split at hnow
    · next hr => simp [hr] at hgt; omega
    · omega
  · obtain ⟨hk, rfl⟩ := hkept hz
    apply step_of_removal hInv hi R
      (fun node hpc ↦ ho _ (hS.owner_of_kept (.dying node hpc rfl))) hr
      (removal_ne_nil he hl hPu hM hD hk ht)
    rw [hInv.wheel i]
    exact heapClassRemoveIndex_lt hM hD _
  · obtain ⟨hk, rfl⟩ := hkept hz
    refine ⟨rfl, ?_⟩
    cases hk with
    | linked node hn hc =>
      subst hc
      exact .inl ⟨sitsIn_of_linked he hl hPu hM hD hn rfl,
        (localNodes_eq_one hInv hi (ho _ (hS.owner_of_kept (.linked node hn rfl))) hn
          (hO.counter node hn)).2⟩
    | dying node hpc hc =>
      exact .inr ⟨node, hpc, hc, (hPu.dying node hpc _ (due_of_inserted he hl hc)).symm⟩
  · rw [← hsize]
    exact ⟨heapClassInsertIndex_lt hM hD time k, heapClassGetIndex_lt hM hD time k,
      heapClassRemoveIndex_lt hM hD time⟩

/-- Two lifetimes and a delay of one tick: the first collection is gone after tick three. -/
theorem exactExpiry_of_inserted_two_lifetimes :
    ∃ s, Reachable (smallOptions 1 2 1) (schrage (smallOptions 1 2 1)) s ∧
      deallocations s.log ⟨0, 0⟩ = [(0, 3)] ∧
      ExactExpiry (smallOptions 1 2 1) (schrage (smallOptions 1 2 1)) 0 s ⟨0, 0⟩ ⟨0, 0⟩ 0 2 := by
  obtain ⟨s, hs, hd, he⟩ := exists_of_endsIn (smallOptions 1 2 1) (schrage (smallOptions 1 2 1))
    (List.replicate 17 0) (fun s ↦ deallocations s.log ⟨0, 0⟩ = [(0, 3)] ∧
      .inserted 0 ⟨0, 0⟩ ⟨0, 0⟩ 0 2 ∈ s.log) (by decide +kernel) (by decide)
  exact ⟨s, hs, hd, exactExpiry_of_inserted (by decide) (by decide) (by decide) hs
    (hs.neverShares rfl 0) he (by decide)⟩

end Acdc
