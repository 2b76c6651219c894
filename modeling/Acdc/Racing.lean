import Acdc.Contents
import Mathlib.Algebra.Order.BigOperators.Group.Finset
import Mathlib.Logic.Relation

/-!
# Racing writes

Threads that traverse shared collections write their objects without a lock. Each turn of the
loop of `write_object` (`src/lifetime-size-classes.c:20–29`) loads a byte through a `volatile`
pointer and stores the next one, and the accesses of the threads interleave. Whatever the
interleaving, the memory after the last access is that after the traversals in sequence.
-/

namespace Acdc.Objects

open Heap Memory

/-- A thread that fills payloads. It is at the first one of `todo`, of which `last` is the byte
that it has written last, or the first byte; `loaded` is what it has loaded from there. -/
structure Writer where
  todo : List Region
  last : Nat
  loaded : Option UInt8

/-- The next access of a writer: a load, a store, or the end of a payload. -/
def Writer.step (w : Writer) (m : Memory) : Option (Memory × Writer) :=
  match w.todo, w.loaded with
  | [], _ => none
  | r :: rs, none =>
    if w.last + 1 < r.size then
      some (m, { w with loaded := some (m (r.start + w.last)) })
    else some (m, ⟨rs, 0, none⟩)
  | r :: rs, some x =>
    some (Function.update m (r.start + (w.last + 1)) (x + 1), ⟨r :: rs, w.last + 1, none⟩)

/-- Writers that share a memory. -/
structure Race where
  memory : Memory
  writers : Nat → Writer

/-- An access of one of `n` writers. -/
inductive Race.Step (n : Nat) (s : Race) : Race → Prop where
  | access (i : Nat) (hi : i < n) (m : Memory) (w : Writer)
      (h : (s.writers i).step s.memory = some (m, w)) :
      Race.Step n s ⟨m, Function.update s.writers i w⟩

/-- Writers before their first access. -/
def Race.start (m : Memory) (todo : Nat → List Region) : Race :=
  ⟨m, fun i ↦ ⟨todo i, 0, none⟩⟩

/-- All writers are done. -/
def Race.Finished (n : Nat) (s : Race) : Prop := ∀ i < n, (s.writers i).todo = []

/-- A memory that differs from `m₀` in some regions only, where its bytes count up. -/
structure Target (m₀ F : Memory) (rs : List Region) : Prop where
  first : ∀ r ∈ rs, F r.start = m₀ r.start
  next : ∀ r ∈ rs, ∀ k, k + 1 < r.size → F (r.start + (k + 1)) = F (r.start + k) + 1
  outside : ∀ x, (∀ r ∈ rs, ¬ r.Has x) → F x = m₀ x

/-! ### The target of the fills -/

section

variable {rs : List Region} {m : Memory}

/-- Fills leave what they do not reach. -/
theorem foldl_fill_of_forall {x : Nat} (h : ∀ r ∈ rs, ∀ m, fill m r x = m x) (m : Memory) :
    rs.foldl fill m x = m x := by
  induction rs generalizing m with
  | nil => rfl
  | cons r rs ih =>
    rw [List.foldl_cons, ih fun s hs ↦ h s (List.mem_cons_of_mem r hs)]
    exact h r List.mem_cons_self m

/-- The fills of regions that do not overlap. -/
theorem target_foldl_fill (h : ∀ r ∈ rs, ∀ s ∈ rs, r = s ∨ r.Apart s) (m : Memory) :
    Target m (rs.foldl fill m) rs where
  first r hr := by
    apply foldl_fill_of_forall
    intro s hs m
    by_cases hrs : s.Has r.start
    · obtain rfl | ha := h s hs r hr
      · exact fill_start m s
      · -- the two start together, and `r` is empty
        have he : r.start = s.start := by
          have h1 := hrs.1
          have h2 := hrs.2
          unfold Region.Apart at ha
          omega
        rw [he]
        exact fill_start m s
    · exact fill_of_not_has hrs
  next r hr k hk := by
    have habs := absorbs_fill h
    have hF : rs.foldl fill m = fill (rs.foldl fill m) r := by
      rw [← habs.foldl_update (fun _ hs ↦ hs) hr, habs.foldl_of_mem (fun _ hs ↦ hs) hr]
    have hval : ∀ j, j < r.size →
        rs.foldl fill m (r.start + j) = rs.foldl fill m r.start + UInt8.ofNat j := by
      intro j hj
      have hhas : r.Has (r.start + j) := ⟨Nat.le_add_right _ _, Nat.add_lt_add_left hj _⟩
      rw [hF, fill_start, fill, if_pos hhas, Nat.add_sub_cancel_left]
    rw [hval (k + 1) hk, hval k (by omega), UInt8.ofNat_add, UInt8.add_assoc]
    rfl
  outside x hx := foldl_fill_of_forall (fun r hr m ↦ fill_of_not_has (hx r hr)) m

end

/-! ### Runs of a race -/

section

variable {n : Nat} {m₀ F : Memory} {rs : List Region} {todo : Nat → List Region} {s t : Race}

/-- What holds of a writer that started with the regions `rs`: the memory of those that it has
left is final, as is what it has written to the present one. -/
structure WriterInv (F m : Memory) (rs : List Region) (w : Writer) : Prop where
  done : ∃ left, rs = left ++ w.todo ∧ ∀ r ∈ left, ∀ x, r.Has x → m x = F x
  last : ∀ r rest, w.todo = r :: rest → ∀ k ≤ w.last, k < r.size →
    m (r.start + k) = F (r.start + k)
  loaded : ∀ r rest, w.todo = r :: rest → ∀ x, w.loaded = some x →
    x = F (r.start + w.last) ∧ w.last + 1 < r.size

/-- A byte is as it was before the race or as it is after it. -/
def Between (m₀ F m : Memory) : Prop := ∀ x, m x = m₀ x ∨ m x = F x

/-- What is final stays so when a final byte is stored. -/
theorem settled_update {m : Memory} {a x : Nat} {v : UInt8} (hv : v = F a) (h : m x = F x) :
    Function.update m a v x = F x := by
  by_cases hx : x = a
  · rw [hx, Function.update_self, hv]
  · rw [Function.update_of_ne hx, h]

theorem WriterInv.update {m : Memory} {w : Writer} {a : Nat} {v : UInt8} (hv : v = F a)
    (h : WriterInv F m rs w) : WriterInv F (Function.update m a v) rs w where
  done := by
    obtain ⟨left, hl, hd⟩ := h.done
    exact ⟨left, hl, fun r hr x hx ↦ settled_update hv (hd r hr x hx)⟩
  last r rest hr k hk hs := settled_update hv (h.last r rest hr k hk hs)
  loaded := h.loaded

/-- An access leaves the memory, or stores a byte that is final. -/
theorem WriterInv.step {m m' : Memory} {w w' : Writer} {all : List Region}
    (hT : Target m₀ F all) (hall : ∀ r ∈ rs, r ∈ all) (hb : Between m₀ F m)
    (h : WriterInv F m rs w) (hs : w.step m = some (m', w')) :
    (m' = m ∨ ∃ a v, v = F a ∧ m' = Function.update m a v) ∧ WriterInv F m' rs w' := by
  obtain ⟨left, hl, hd⟩ := h.done
  obtain ⟨todo, last, loaded⟩ := w
  cases todo with
  | nil => cases hs
  | cons r rest =>
    have hr : r ∈ all := hall r (by rw [hl]; simp)
    have hlast := h.last r rest rfl
    cases loaded with
    | none =>
      simp only [Writer.step] at hs
      split at hs
      · next hlt =>
        cases hs
        refine ⟨.inl rfl, ⟨left, hl, hd⟩, h.last, ?_⟩
        rintro _ _ ⟨⟩ _ ⟨⟩
        exact ⟨hlast last le_rfl (by omega), hlt⟩
      · next hge =>
        cases hs
        refine ⟨.inl rfl, ⟨left ++ [r], by simpa using hl, ?_⟩, ?_, nofun⟩
        · intro q hq x hx
          obtain hq | hq := List.mem_append.mp hq
          · exact hd q hq x hx
          · obtain rfl := List.mem_singleton.mp hq
            -- the loop ends at the last byte
            have h1 := hx.1
            have h2 := hx.2
            have := hlast (x - q.start) (by simp only at hge ⊢; omega) (by omega)
            rwa [Nat.add_sub_cancel' h1] at this
        · -- a payload starts with its first byte, which no access stores
          rintro q _ hq k hk hks
          simp only at hq hk
          obtain rfl : k = 0 := by omega
          have hqa : q ∈ all := hall q (by rw [hl, hq]; simp)
          have hf := hT.first q hqa
          obtain he | he := hb q.start
          · rw [Nat.add_zero, he, hf]
          · exact he
    | some x =>
      cases hs
      obtain ⟨hx, hlt⟩ := h.loaded r rest rfl x rfl
      have hv : x + 1 = F (r.start + (last + 1)) := by rw [hT.next r hr last hlt, hx]
      refine ⟨.inr ⟨_, _, hv, rfl⟩, ?_⟩
      obtain ⟨hdone, -, -⟩ := h.update hv
      refine ⟨hdone, ?_, nofun⟩
      rintro _ _ ⟨⟩ k hk hks
      obtain hk | rfl := Nat.le_succ_iff.mp hk
      · exact settled_update hv (hlast k hk hks)
      · rw [Function.update_self, hv]

/-- What holds of a race at any time. -/
structure Race.Inv (n : Nat) (m₀ F : Memory) (todo : Nat → List Region) (s : Race) : Prop where
  between : Between m₀ F s.memory
  writers : ∀ i < n, WriterInv F s.memory (todo i) (s.writers i)

/-- An access keeps the invariant of all writers. -/
theorem Race.Inv.step (hT : Target m₀ F rs) (hall : ∀ i < n, ∀ r ∈ todo i, r ∈ rs)
    (h : Race.Inv n m₀ F todo s) (hs : Race.Step n s t) : Race.Inv n m₀ F todo t := by
  obtain ⟨i, hi, m, w, hw⟩ := hs
  obtain ⟨hm, hwi⟩ := (h.writers i hi).step hT (hall i hi) h.between hw
  constructor
  · intro x
    obtain rfl | ⟨a, v, hv, rfl⟩ := hm
    · exact h.between x
    · by_cases hx : x = a
      · right
        rw [hx]
        exact (Function.update_self ..).trans hv
      · simp only [Function.update_of_ne hx]
        exact h.between x
  · intro j hj
    by_cases hji : j = i
    · subst hji
      simpa only [Function.update_self] using hwi
    · simp only [Function.update_of_ne hji]
      obtain rfl | ⟨a, v, hv, rfl⟩ := hm
      · exact h.writers j hj
      · exact (h.writers j hj).update hv

theorem Race.Inv.start (hT : Target m₀ F rs) (hall : ∀ i < n, ∀ r ∈ todo i, r ∈ rs) :
    Race.Inv n m₀ F todo (Race.start m₀ todo) where
  between _ := .inl rfl
  writers i hi := by
    refine ⟨⟨[], rfl, nofun⟩, ?_, nofun⟩
    intro r rest hr k hk _
    obtain rfl : k = 0 := Nat.le_zero.mp hk
    have hr : todo i = r :: rest := hr
    exact (hT.first r (hall i hi r (by rw [hr]; exact List.mem_cons_self))).symm

/-- The invariant holds at any time of a race. -/
theorem Race.inv_of_run (hT : Target m₀ F rs) (hall : ∀ i < n, ∀ r ∈ todo i, r ∈ rs)
    (hrun : Relation.ReflTransGen (Race.Step n) (Race.start m₀ todo) t) :
    Race.Inv n m₀ F todo t := by
  induction hrun with
  | refl => exact .start hT hall
  | tail _ hs ih => exact ih.step hT hall hs

/-- The accesses that a writer has left, the ends of the payloads included. -/
def Writer.remaining (w : Writer) : Nat :=
  match w.todo with
  | [] => 0
  | r :: rs => 2 * (r.size - (w.last + 1)) + 1 - w.loaded.toList.length +
      (rs.map fun r ↦ 2 * (r.size - 1) + 1).sum

/-- Every access leaves fewer of them. -/
theorem WriterInv.remaining_lt {m m' : Memory} {w w' : Writer} (h : WriterInv F m rs w)
    (hs : w.step m = some (m', w')) : w'.remaining < w.remaining := by
  obtain ⟨todo, last, loaded⟩ := w
  cases todo with
  | nil => cases hs
  | cons r rest =>
    cases loaded with
    | none =>
      simp only [Writer.step] at hs
      split at hs
      · next hlt =>
        cases hs
        simp only [Writer.remaining, Option.toList_some, Option.toList_none, List.length_singleton,
          List.length_nil]
        omega
      · cases hs
        cases rest with
        | nil => simp [Writer.remaining]
        | cons q rest =>
          simp only [Writer.remaining, Option.toList_none, List.length_nil, List.map_cons,
            List.sum_cons]
          omega
    | some x =>
      cases hs
      have hlt := (h.loaded r rest rfl x rfl).2
      simp only [Writer.remaining, Option.toList_some, Option.toList_none, List.length_singleton,
        List.length_nil] at hlt ⊢
      omega

/-- A writer that is not done has an access to make. -/
theorem Writer.exists_step {w : Writer} (hw : w.todo ≠ []) (m : Memory) :
    ∃ m' w', w.step m = some (m', w') := by
  obtain ⟨todo, last, loaded⟩ := w
  cases todo with
  | nil => exact absurd rfl hw
  | cons r rest =>
    cases loaded with
    | none =>
      simp only [Writer.step]
      split
      · exact ⟨_, _, rfl⟩
      · exact ⟨_, _, rfl⟩
    | some x => exact ⟨_, _, rfl⟩

/-- Every race comes to an end. -/
theorem Race.Inv.exists_finished (hT : Target m₀ F rs) (hall : ∀ i < n, ∀ r ∈ todo i, r ∈ rs)
    (h : Race.Inv n m₀ F todo s) :
    ∃ t, Relation.ReflTransGen (Race.Step n) s t ∧ Race.Finished n t := by
  -- by induction on the accesses that are left
  induction hk : ∑ i ∈ Finset.range n, (s.writers i).remaining using Nat.strong_induction_on
    generalizing s with
  | _ k ih =>
    by_cases hf : Race.Finished n s
    · exact ⟨s, .refl, hf⟩
    · simp only [Race.Finished, not_forall] at hf
      obtain ⟨i, hi, hw⟩ := hf
      obtain ⟨m, w, hstep⟩ := Writer.exists_step hw s.memory
      have hs : Race.Step n s ⟨m, Function.update s.writers i w⟩ := .access i hi m w hstep
      have hlt : ∑ j ∈ Finset.range n, (Function.update s.writers i w j).remaining < k := by
        rw [← hk]
        apply Finset.sum_lt_sum _ ⟨i, Finset.mem_range.mpr hi, _⟩
        · intro j _
          by_cases hj : j = i
          · subst hj
            rw [Function.update_self]
            exact ((h.writers j hi).remaining_lt hstep).le
          · rw [Function.update_of_ne hj]
        · rw [Function.update_self]
          exact (h.writers i hi).remaining_lt hstep
      obtain ⟨t, ht, hft⟩ := ih _ hlt (h.step hT hall hs) rfl
      exact ⟨t, .head hs ht, hft⟩

/-- A race that is over has filled all regions of its writers. -/
theorem Race.memory_eq (hT : Target m₀ F rs) (hrs : ∀ r, r ∈ rs ↔ ∃ i < n, r ∈ todo i)
    (hrun : Relation.ReflTransGen (Race.Step n) (Race.start m₀ todo) t)
    (hf : Race.Finished n t) : t.memory = F := by
  have hinv := Race.inv_of_run hT (fun i hi r hr ↦ (hrs r).mpr ⟨i, hi, hr⟩) hrun
  ext1 x
  by_cases hx : ∃ r ∈ rs, r.Has x
  · obtain ⟨r, hr, hx⟩ := hx
    obtain ⟨i, hi, hr⟩ := (hrs r).mp hr
    obtain ⟨left, hl, hd⟩ := (hinv.writers i hi).done
    rw [hf i hi, List.append_nil] at hl
    exact hd r (hl ▸ hr) x hx
  · rw [hT.outside x fun r hr hh ↦ hx ⟨r, hr, hh⟩]
    obtain he | he := hinv.between x
    · exact he
    · rw [he, hT.outside x fun r hr hh ↦ hx ⟨r, hr, hh⟩]

end

end Acdc.Objects

namespace Acdc

open Heap Objects

variable {σ : Type} {A : Allocator} {g : GOptions} {R : Generator σ} {S : HeapSys σ}
  {qs : Slot → List UInt64}

/-- What a thread that traverses a collection fills, in order: the payloads of the objects that it
writes, each as often as there are iterations. -/
def accesses (g : GOptions) (d : LSClass) (qs : List UInt64) : List Region :=
  qs.zipIdx.flatMap fun (q, i) ↦ List.replicate (writesTo g (accessCounter d.type i))
    (payload d.objectSize (headerSize d.type) q)

theorem mem_accesses {d : LSClass} {q : List UInt64} {r : Region} :
    r ∈ accesses g d q ↔ r ∈ traversalWrites g d q := by
  simp only [accesses, traversalWrites, writes, List.mem_flatMap, List.mem_map, List.mem_filter,
    List.mem_replicate]
  constructor
  · rintro ⟨⟨q, i⟩, hm, hn, rfl⟩
    exact ⟨_, ⟨⟨(q, i), hm, rfl⟩, decide_eq_true (Nat.pos_of_ne_zero hn)⟩, rfl⟩
  · rintro ⟨v, ⟨⟨⟨q, i⟩, hm, rfl⟩, hw⟩, rfl⟩
    exact ⟨(q, i), hm, Nat.ne_of_gt (of_decide_eq_true hw), rfl⟩

/-- The order of the visits of each live collection. -/
def VisitOrders (S : HeapSys σ) (qs : Slot → List UInt64) : Prop :=
  ∀ c ∈ live S.sys.log, VisitOrder S.heap.bytes (S.starts c) (qs c) (S.sys.classes c).type

/-- Traversals that race are serializable. In every reachable state, let `n` threads traverse live
collections, each its own sequence, with all their accesses interleaved: the race can always be
finished, and once all threads are done the memory is that after traversals of the same collections
in any sequence. -/
theorem races_serializable (hg : HeapOptions g) (hS : HeapReachable A g R S)
    (hq : VisitOrders S qs) {n : Nat} {cs : Nat → List Slot}
    (hcs : ∀ i < n, ∀ c ∈ cs i, c ∈ live S.sys.log) {all : List Slot}
    (hall : ∀ c, c ∈ all ↔ ∃ i < n, c ∈ cs i) {s : Race}
    (hrun : Relation.ReflTransGen (Race.Step n) (Race.start S.heap.bytes fun i ↦
      (cs i).flatMap fun c ↦ accesses g (S.sys.classes c) (qs c)) s) :
    ∃ h, traverseAll g S all S.heap = .ok h ∧
      (∃ t, Relation.ReflTransGen (Race.Step n) s t ∧ Race.Finished n t) ∧
      ∀ t, Relation.ReflTransGen (Race.Step n) s t → Race.Finished n t →
        t.memory = h.bytes := by
  obtain ⟨objs, H⟩ := hS.inv hg
  obtain ⟨qs', hq'⟩ := H.exists_ordered
  have hlive : ∀ c ∈ all, c ∈ live S.sys.log := by
    intro c hc
    obtain ⟨i, hi, hc⟩ := (hall c).mp hc
    exact hcs i hi c hc
  have hqs : ∀ c ∈ live S.sys.log, qs' c = qs c := fun c hc ↦ (hq' c hc).1.unique (hq c hc)
  obtain ⟨h, hh, hb⟩ := (H.traverseAll hg.ratio hq' hlive).exists_ok fun _ he ↦ he.elim
  have hT : Target S.heap.bytes
      ((all.flatMap fun c ↦ traversalWrites g (S.sys.classes c) (qs' c)).foldl fill S.heap.bytes)
      (all.flatMap fun c ↦ traversalWrites g (S.sys.classes c) (qs' c)) := by
    apply target_foldl_fill
    intro r hr r' hr'
    obtain ⟨c, hc, hr⟩ := List.mem_flatMap.mp hr
    obtain ⟨c', hc', hr'⟩ := List.mem_flatMap.mp hr'
    exact H.eq_or_apart hq' (hlive c hc) (hlive c' hc') hr hr'
  have hrs : ∀ r, r ∈ all.flatMap (fun c ↦ traversalWrites g (S.sys.classes c) (qs' c)) ↔
      ∃ i < n, r ∈ (cs i).flatMap fun c ↦ accesses g (S.sys.classes c) (qs c) := by
    intro r
    simp only [List.mem_flatMap, mem_accesses, hall]
    constructor
    · rintro ⟨c, ⟨i, hi, hc⟩, hr⟩
      exact ⟨i, hi, c, hc, hqs c (hcs i hi c hc) ▸ hr⟩
    · rintro ⟨i, hi, c, hc, hr⟩
      exact ⟨c, ⟨i, hi, hc⟩, (hqs c (hcs i hi c hc)).symm ▸ hr⟩
  have hmem : ∀ i < n, ∀ r ∈ (cs i).flatMap (fun c ↦ accesses g (S.sys.classes c) (qs c)),
      r ∈ all.flatMap fun c ↦ traversalWrites g (S.sys.classes c) (qs' c) :=
    fun i hi r hr ↦ (hrs r).mpr ⟨i, hi, hr⟩
  refine ⟨h, hh, (Race.inv_of_run hT hmem hrun).exists_finished hT hmem, ?_⟩
  intro t ht hf
  rw [hb]
  exact Race.memory_eq hT hrs (hrun.trans ht) hf

/-- Two threads race over the two collections that they share. -/
theorem races_serializable_two :
    ∃ (S : HeapSys Int32) (qs : Slot → List UInt64) (h : Heap) (t : Race),
    HeapReachable bumpAllocator writingOptions (schrage writingOptions) S ∧
      traverseAll writingOptions S [⟨0, 0⟩, ⟨1, 0⟩] S.heap = .ok h ∧
      Relation.ReflTransGen (Race.Step 2) (Race.start S.heap.bytes fun _ ↦
        [(⟨0, 0⟩ : Slot), ⟨1, 0⟩].flatMap fun c ↦
          accesses writingOptions (S.sys.classes c) (qs c)) t ∧
      Race.Finished 2 t ∧ t.memory = h.bytes := by
  obtain ⟨S, hS, hl⟩ := exists_of_endsOnHeap bumpAllocator writingOptions
    (schrage writingOptions) ([0, 1, 0, 1] ++ List.replicate 12 0 ++ List.replicate 11 1)
    (fun S ↦ ∀ c ∈ [(⟨0, 0⟩ : Slot), ⟨1, 0⟩], c ∈ live S.sys.log)
    (by decide +kernel) (by decide) (by decide)
  obtain ⟨objs, H⟩ := hS.inv heapOptions_writingOptions
  obtain ⟨qs, hq⟩ := H.exists_ordered
  obtain ⟨h, hh, ⟨t, ht, hf⟩, hall⟩ := races_serializable heapOptions_writingOptions hS
    (fun c hc ↦ (hq c hc).1) (n := 2) (fun _ _ ↦ hl)
    (fun c ↦ ⟨fun hc ↦ ⟨0, by decide, hc⟩, fun ⟨_, _, hc⟩ ↦ hc⟩) .refl
  exact ⟨S, qs, h, t, hS, hh, ht, hf, hall t ht hf⟩

end Acdc
