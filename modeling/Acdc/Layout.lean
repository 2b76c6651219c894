import Acdc.Addresses
import Acdc.Slots
import Acdc.StartUp
import Mathlib.Data.List.GetD

/-!
# Layout of the metadata

Where the blocks of the start-up lie. The first block of a thread begins a line of the cache, so
that the blocks of two threads have no line in common. A slot is a line of its own in a buffer
of the thread that has carved it, in every run and whichever threads and lists it passes through.
-/

namespace Acdc

open Arena

variable {g : GOptions} {rs : List Request} {h h' : MetadataHeap}

/-! ### Requests one after the other -/

theorem serveAll_append {rs' : List Request} (hs : (serveAll (rs ++ rs') h).2 = .ok h') :
    ∃ h₁, (serveAll rs h).2 = .ok h₁ ∧ (serveAll rs' h₁).2 = .ok h' ∧
      (serveAll (rs ++ rs') h).1 = (serveAll rs h).1 ++ (serveAll rs' h₁).1 := by
  induction rs generalizing h with
  | nil => exact ⟨h, rfl, hs, rfl⟩
  | cons r rs ih =>
    rw [List.cons_append, serveAll] at hs
    cases hr : r.serve h with
    | error e =>
      rw [hr] at hs
      cases hs
    | ok p =>
      rw [hr] at hs
      obtain ⟨h₁, hfront, hback, he⟩ := ih hs
      rw [List.cons_append, serveAll, serveAll, hr]
      exact ⟨h₁, hfront, hback, congrArg _ he⟩

/-- A request with its address. -/
abbrev MetaBlock := Request × UInt64

/-- The block of a request. -/
abbrev MetaBlock.region (b : MetaBlock) : Region := b.1.block b.2

/-- Requests that are all served have their blocks between the bump pointers. -/
theorem between_of_serveAll (hrs : ∀ r ∈ rs, r.Fits) (hs : (serveAll rs h).2 = .ok h') :
    (serveAll rs h).1.map Prod.fst = rs ∧ h.bumpPointer.toNat ≤ h'.bumpPointer.toNat ∧
      ∀ b ∈ (serveAll rs h).1, h.bumpPointer.toNat ≤ b.2.toNat ∧
        b.2.toNat + b.1.size ≤ h'.bumpPointer.toNat := by
  induction rs generalizing h with
  | nil =>
    cases hs
    exact ⟨rfl, le_rfl, nofun⟩
  | cons r rs ih =>
    rw [serveAll] at hs ⊢
    cases hr : r.serve h with
    | error e =>
      rw [hr] at hs
      cases hs
    | ok p =>
      rw [hr] at hs
      obtain ⟨ptr, h₁⟩ := p
      have hserved := Request.served_of_serve (hrs r List.mem_cons_self) hr
      obtain ⟨hreq, hle, hmem⟩ := ih (fun r hr ↦ hrs r (List.mem_cons_of_mem _ hr)) hs
      have hge := hserved.ge
      have hend := hserved.le
      refine ⟨congrArg _ hreq, by omega, fun b hb ↦ ?_⟩
      obtain rfl | hb := List.mem_cons.mp hb
      · exact ⟨hge, hend.trans hle⟩
      · have hb := hmem b hb
        omega

/-- The blocks of requests, from that of the first one on. -/
theorem exists_start_of_serveAll {first : Request} (hrs : ∀ r ∈ first :: rs, r.Fits)
    (hs : (serveAll (first :: rs) h).2 = .ok h') :
    ∃ p, h.bumpPointer.toNat ≤ p ∧ p ≤ h'.bumpPointer.toNat ∧ first.alignment.toNat ∣ p ∧
      ∀ b ∈ (serveAll (first :: rs) h).1, p ≤ b.2.toNat ∧
        b.2.toNat + b.1.size ≤ h'.bumpPointer.toNat := by
  rw [serveAll] at hs ⊢
  cases hr : first.serve h with
  | error e =>
    rw [hr] at hs
    cases hs
  | ok p =>
    rw [hr] at hs
    obtain ⟨ptr, h₁⟩ := p
    have hserved := Request.served_of_serve (hrs first List.mem_cons_self) hr
    obtain ⟨-, hle, hmem⟩ := between_of_serveAll (fun r hr ↦ hrs r (List.mem_cons_of_mem _ hr)) hs
    have hend := hserved.le
    refine ⟨ptr.toNat, hserved.ge, by omega, hserved.aligned, fun b hb ↦ ?_⟩
    obtain rfl | hb := List.mem_cons.mp hb
    · exact ⟨le_rfl, hend.trans hle⟩
    · have hb := hmem b hb
      omega

/-- The same requests for each of `n` threads, the first of them for a line. -/
theorem exists_contexts {line n : Nat} {first : Request} (hrs : ∀ r ∈ first :: rs, r.Fits)
    (hline : first.alignment.toNat = line)
    (hs : (serveAll (List.replicate n (first :: rs)).flatten h).2 = .ok h') :
    ∃ contexts : List (List MetaBlock),
      (serveAll (List.replicate n (first :: rs)).flatten h).1 = contexts.flatten ∧
      contexts.length = n ∧ (∀ bs ∈ contexts, bs.map Prod.fst = first :: rs) ∧
      OnLines line h.bumpPointer.toNat (contexts.map (List.map MetaBlock.region)) := by
  induction n generalizing h with
  | zero => exact ⟨[], rfl, rfl, nofun, .nil _⟩
  | succ n ih =>
    rw [List.replicate_succ, List.flatten_cons] at hs ⊢
    obtain ⟨h₁, hfront, hback, he⟩ := serveAll_append hs
    obtain ⟨contexts, hblocks, hlen, hreq, hlines⟩ := ih hback
    obtain ⟨p, hge, hle, hdvd, hp⟩ := exists_start_of_serveAll hrs hfront
    refine ⟨(serveAll (first :: rs) h).1 :: contexts, ?_, congrArg _ hlen, ?_, ?_⟩
    · rw [he, hblocks, List.flatten_cons]
    · exact List.forall_mem_cons.mpr ⟨(between_of_serveAll hrs hfront).1, hreq⟩
    · apply OnLines.cons hge hle (hline ▸ hdvd) _ hlines
      intro r hr
      obtain ⟨b, hb, rfl⟩ := List.mem_map.mp hr
      exact hp b hb

/-! ### The blocks of the threads -/

/-- The blocks of the start-up: shared ones, and those of each thread, in lines of its own. -/
structure MetadataLayout (g : GOptions) (blocks : List MetaBlock)
    (contexts : List (List MetaBlock)) : Prop where
  blocks : ∃ shared, blocks = shared ++ contexts.flatten
  length : contexts.length = g.threads
  requests : ∀ bs ∈ contexts, contextRequests g = .ok (bs.map Prod.fst)
  lines : contexts.Pairwise fun bs bs' ↦ ∀ b ∈ bs, ∀ b' ∈ bs', ∀ x y,
    b.region.Has x → b'.region.Has y → x / 64 < y / 64
  apart : contexts.flatten.Pairwise fun b b' ↦ b.region.Apart b'.region
  aligned : ∀ b ∈ contexts.flatten, b.1.alignment.toNat ∣ b.2.toNat
  inside : ∀ b ∈ contexts.flatten, b.2.toNat + b.1.size < 2 ^ 64

/-- The requests for a thread begin with one for a line. The buffers of its slots are the seventh
and the eighth block. -/
theorem contextRequests_cases (hrs : contextRequests g = .ok rs) :
    (∃ others, rs = .callocMetaAligned 1 sizeofMContext 64 :: others) ∧
      rs[6]? = some (.mallocMetaAligned (64 * g.nodeBufferSize) 64) ∧
      rs[7]? = some (.mallocMetaAligned (64 * g.classBufferSize) 64) := by
  unfold contextRequests at hrs
  cases h₁ : intResult (g.maxLiveness.toInt + 1) with
  | error e =>
    rw [h₁] at hrs
    cases hrs
  | ok x =>
    cases h₂ : intResult (g.maxObjectSc.toInt + 1) with
    | error e =>
      rw [h₁, h₂] at hrs
      cases hrs
    | ok y =>
      cases h₃ : intResult (g.maxLiveness.toInt + g.deallocationDelay.toInt) with
      | error e =>
        rw [h₁, h₂, h₃] at hrs
        cases hrs
      | ok z =>
        rw [h₁, h₂, h₃] at hrs
        cases hrs
        exact ⟨⟨_, rfl⟩, rfl, rfl⟩

theorem startUpRequests_cases (hrs : startUpRequests g = .ok rs) :
    ∃ shared context, contextRequests g = .ok context ∧
      rs = shared ++ (List.replicate g.threads context).flatten := by
  cases hc : contextRequests g with
  | error e =>
    rw [startUpRequests, hc] at hrs
    cases hrs
  | ok context =>
    rw [startUpRequests, hc] at hrs
    cases hrs
    exact ⟨_, context, rfl, rfl⟩

theorem exists_layout (hg : g.Positive) (hrs : startUpRequests g = .ok rs)
    (hs : (serveAll rs h).2 = .ok h') :
    ∃ contexts, MetadataLayout g (serveAll rs h).1 contexts := by
  have hsums := fitsSums_of_startUpRequests hg hrs
  obtain ⟨context, hc, hthread, -, -⟩ := exists_contextRequests hg hsums
  obtain ⟨_, hrs', hfits, -, -⟩ := exists_startUpRequests hg hsums
  obtain rfl := Except.ok.inj (hrs'.symm.trans hrs)
  obtain ⟨haligned, hwithin, hapart⟩ := serveAll_packed (h := h) hfits
  obtain ⟨shared, _, hc', rfl⟩ := startUpRequests_cases hrs
  obtain rfl := Except.ok.inj (hc'.symm.trans hc)
  obtain ⟨⟨others, rfl⟩, -, -⟩ := contextRequests_cases hc
  obtain ⟨h₁, -, hback, he⟩ := serveAll_append hs
  obtain ⟨contexts, hblocks, hlen, hreq, hlines⟩ := exists_contexts hthread rfl hback
  rw [hblocks] at he
  rw [he] at haligned hwithin hapart ⊢
  refine ⟨contexts, ⟨_, rfl⟩, hlen, fun bs hbs ↦ ?_, ?_, ?_, fun b hb ↦ ?_, fun b hb ↦ ?_⟩
  · rw [hc, hreq bs hbs]
  · have hpairs := hlines.pairwise (by decide)
    rw [List.pairwise_map] at hpairs
    apply hpairs.imp
    intro bs bs' hbs b hb b' hb'
    exact hbs _ (List.mem_map_of_mem hb) _ (List.mem_map_of_mem hb')
  · rw [List.map_append, List.pairwise_append] at hapart
    exact List.pairwise_map.mp hapart.2.1
  · exact haligned b (List.mem_append_right _ hb)
  · have hend := (hwithin _ (List.mem_map_of_mem (List.mem_append_right _ hb))).2
    exact hend.trans_lt h.stop.toNat_lt

/-- Elements of two lists that go together in the list of all elements. -/
theorem of_pairwise_flatten {α : Type*} {r : α → α → Prop} [Std.Symm r] {l : List (List α)}
    (h : l.flatten.Pairwise r) {i j k m : Nat} {a b : α} (ha : (l.getD i [])[k]? = some a)
    (hb : (l.getD j [])[m]? = some b) (hne : ¬ (i = j ∧ k = m)) : r a b := by
  obtain ⟨hone, htwo⟩ := List.pairwise_flatten.mp h
  have hlt {i k : Nat} {a : α} (ha : (l.getD i [])[k]? = some a) : i < l.length := by
    by_contra hle
    rw [List.getD_eq_default _ _ (Nat.not_lt.mp hle)] at ha
    cases ha
  have hi := hlt ha
  have hj := hlt hb
  rw [List.getD_eq_getElem _ _ hi] at ha
  rw [List.getD_eq_getElem _ _ hj] at hb
  rw [List.pairwise_iff_getElem] at htwo
  rcases Nat.lt_trichotomy i j with hij | rfl | hji
  · exact htwo i j hi hj hij a (List.mem_of_getElem? ha) b (List.mem_of_getElem? hb)
  · have hpair := List.pairwise_iff_getElem.mp (hone _ (List.getElem_mem hi))
    obtain ⟨hk, rfl⟩ := List.getElem?_eq_some_iff.mp ha
    obtain ⟨hm, rfl⟩ := List.getElem?_eq_some_iff.mp hb
    rcases Nat.lt_or_gt_of_ne fun he ↦ hne ⟨rfl, he⟩ with hkm | hmk
    · exact hpair k m hk hm hkm
    · exact symm (hpair m k hm hk hmk)
  · exact symm (htwo j i hj hi hji b (List.mem_of_getElem? hb) a (List.mem_of_getElem? ha))

/-! ### The slots of a run -/

/-- The two kinds of slots of a thread. -/
inductive SlotKind where
  | node
  | lsClass
  deriving DecidableEq, Repr

namespace SlotKind

/-- The number of slots of a buffer. -/
def bufferSize (kind : SlotKind) (g : GOptions) : UInt64 :=
  match kind with
  | node => g.nodeBufferSize
  | lsClass => g.classBufferSize

/-- The number of the buffer among the blocks of a thread. -/
def block : SlotKind → Nat
  | node => 6
  | lsClass => 7

/-- The number of carved slots of a thread. -/
def counter {σ : Type} (kind : SlotKind) (s : Sys σ) (i : Nat) : Nat :=
  match kind with
  | node => (s.threads i).mc.nodeBufferCounter
  | lsClass => (s.threads i).mc.classBufferCounter

/-- The carving of a slot. -/
def carve (kind : SlotKind) (g : GOptions) : SlotBuffer → Except Stop (UInt64 × SlotBuffer) :=
  match kind with
  | node => carveLSCNode g.nodeBufferSize
  | lsClass => carveLSClass g.classBufferSize

/-- `node_buffer_memory` and `class_buffer_memory` of a thread. -/
def bufferMemory (kind : SlotKind) (contexts : List (List MetaBlock)) (i : Nat) : UInt64 :=
  (((contexts.getD i [])[kind.block]?).map Prod.snd).getD 0

/-- Where a slot lies. -/
def address (kind : SlotKind) (contexts : List (List MetaBlock)) (n : Slot) : UInt64 :=
  kind.bufferMemory contexts n.owner + UInt64.ofNat (64 * n.index)

end SlotKind

/-- The slots that are in use lie where their owners have carved them, each of them in a line of
its own, and so does a slot that a thread carves next. -/
structure OwnLines {σ : Type} (g : GOptions) (contexts : List (List MetaBlock)) (s : Sys σ) :
    Prop where
  carved : ∀ (kind : SlotKind) n, TakenFrom g (kind.counter s) n →
    (kind.carve g ⟨kind.bufferMemory contexts n.owner, Int32.ofNat n.index⟩).map Prod.fst =
      .ok (kind.address contexts n)
  nextNode : ∀ i, (s.threads i).mc.nodeCache = [] →
    (carveLSCNode g.nodeBufferSize ⟨SlotKind.node.bufferMemory contexts i,
        Int32.ofNat (s.threads i).mc.nodeBufferCounter⟩).map Prod.fst =
      (getLSCNode g i (s.threads i).mc).map fun p ↦ SlotKind.node.address contexts p.1
  nextClass : ∀ i, (s.threads i).mc.classCache = [] →
    (carveLSClass g.classBufferSize ⟨SlotKind.lsClass.bufferMemory contexts i,
        Int32.ofNat (s.threads i).mc.classBufferCounter⟩).map Prod.fst =
      (getLSClass g i (s.threads i).mc).map fun p ↦ SlotKind.lsClass.address contexts p.1
  within : ∀ (kind : SlotKind) n, TakenFrom g (kind.counter s) n →
    ∃ b, (contexts.getD n.owner [])[kind.block]? = some b ∧
      Region.Within ⟨(kind.address contexts n).toNat, 64⟩ b.region
  aligned : ∀ (kind : SlotKind) n, TakenFrom g (kind.counter s) n →
    64 ∣ (kind.address contexts n).toNat
  apart : ∀ (kind kind' : SlotKind) n n', TakenFrom g (kind.counter s) n →
    TakenFrom g (kind'.counter s) n' → kind.address contexts n = kind'.address contexts n' →
      kind = kind' ∧ n = n'

section Runs

variable {σ : Type} {R : Generator σ} {i j : Nat} {s s' : Sys σ} {kind kind' : SlotKind}
  {contexts : List (List MetaBlock)} {blocks : List MetaBlock}

/-- No thread has carved more slots than its buffer has. -/
theorem Reachable.counter_le (hs : Reachable g R s) (kind : SlotKind) (i : Nat) :
    kind.counter s i ≤ (kind.bufferSize g).toNat := by
  cases kind with
  | node => exact (hs.nodeBufferCounter_le i).trans (Nat.min_le_left ..)
  | lsClass => exact hs.classBufferCounter_le i

/-- The buffer of a thread is one of its blocks. -/
theorem MetadataLayout.exists_buffer (hL : MetadataLayout g blocks contexts) (kind : SlotKind)
    (hi : i < g.threads) : ∃ b, (contexts.getD i [])[kind.block]? = some b ∧
      b.2 = kind.bufferMemory contexts i ∧
      b.1 = .mallocMetaAligned (64 * kind.bufferSize g) 64 ∧ b ∈ contexts.flatten := by
  have hlt : i < contexts.length := hL.length ▸ hi
  have hmem := List.getElem_mem hlt
  obtain ⟨-, hnode, hclass⟩ := contextRequests_cases (hL.requests _ hmem)
  have hreq : (contexts[i].map Prod.fst)[kind.block]? =
      some (.mallocMetaAligned (64 * kind.bufferSize g) 64) := by
    cases kind with
    | node => exact hnode
    | lsClass => exact hclass
  rw [List.getElem?_map] at hreq
  obtain ⟨b, hb, hfst⟩ := Option.map_eq_some_iff.mp hreq
  have hcontext := List.getD_eq_getElem contexts [] hlt
  refine ⟨b, hcontext ▸ hb, ?_, hfst, List.mem_flatten.mpr ⟨_, hmem, List.mem_of_getElem? hb⟩⟩
  rw [SlotKind.bufferMemory, hcontext, hb]
  rfl

/-- A slot of a buffer whose offsets do not overflow. -/
theorem MetadataLayout.slot (hL : MetadataLayout g blocks contexts) {n : Slot}
    (hi : n.owner < g.threads) (hsize : (kind.bufferSize g).toNat ≤ 2 ^ 26)
    (hn : n.index < (kind.bufferSize g).toNat) :
    ∃ b, (contexts.getD n.owner [])[kind.block]? = some b ∧
      (kind.address contexts n).toNat = b.2.toNat + 64 * n.index ∧ 64 ∣ b.2.toNat ∧
      Region.Within ⟨(kind.address contexts n).toNat, 64⟩ b.region := by
  obtain ⟨b, hb, hmemory, hreq, hmem⟩ := hL.exists_buffer kind hi
  have hinside := hL.inside b hmem
  have haligned := hL.aligned b hmem
  have hbytes : b.1.size = 64 * (kind.bufferSize g).toNat := by
    rw [hreq, Request.size, UInt64.toNat_mul]
    exact Nat.mod_eq_of_lt (by simp only [UInt64.reduceToNat]; omega)
  have haddr : (kind.address contexts n).toNat = b.2.toNat + 64 * n.index := by
    rw [SlotKind.address, ← hmemory, UInt64.toNat_add,
      UInt64.toNat_ofNat_of_lt' (show 64 * n.index < 2 ^ 64 by omega)]
    exact Nat.mod_eq_of_lt (by omega)
  rw [hreq] at haligned
  refine ⟨b, hb, haddr, haligned, ?_⟩
  rw [haddr]
  constructor
  · exact Nat.le_add_right _ _
  · simp only [MetaBlock.region, Request.block, hbytes]
    omega

/-- Slots with one address are the same slot of the same buffer. -/
theorem MetadataLayout.eq_of_address (hL : MetadataLayout g blocks contexts) {n n' : Slot}
    (hi : n.owner < g.threads) (hi' : n'.owner < g.threads)
    (hsize : ∀ kind : SlotKind, (kind.bufferSize g).toNat ≤ 2 ^ 26)
    (hn : n.index < (kind.bufferSize g).toNat) (hn' : n'.index < (kind'.bufferSize g).toNat)
    (he : kind.address contexts n = kind'.address contexts n') : kind = kind' ∧ n = n' := by
  obtain ⟨b, hb, haddr, -, hwithin⟩ := hL.slot hi (hsize kind) hn
  obtain ⟨b', hb', haddr', -, hwithin'⟩ := hL.slot hi' (hsize kind') hn'
  by_cases hsame : n.owner = n'.owner ∧ kind.block = kind'.block
  · obtain ⟨howner, hblock⟩ := hsame
    rw [howner, hblock, hb'] at hb
    cases hb
    have hkind : kind = kind' := by
      cases kind <;> cases kind' <;> first | rfl | cases hblock
    refine ⟨hkind, ?_⟩
    rw [he] at haddr
    obtain ⟨owner, index⟩ := n
    obtain ⟨owner', index'⟩ := n'
    obtain rfl : owner = owner' := howner
    have hindex : index = index' := by
      dsimp only at haddr haddr'
      omega
    rw [hindex]
  · -- two blocks do not overlap, so they have no line in common
    have hapart := of_pairwise_flatten hL.apart hb hb' hsame
    have hlines := (hwithin.apart hapart).symm
    have hself := (hwithin'.apart hlines).symm
    rw [he] at hself
    simp only [Region.Apart] at hself
    omega

private theorem map_getLSCNode_address {mc : MContext σ} (hc : mc.nodeCache = []) :
    ((getLSCNode g i mc).map fun (node, mc) ↦
        (SlotKind.node.bufferMemory contexts i + UInt64.ofNat (64 * node.index),
          (⟨SlotKind.node.bufferMemory contexts i, Int32.ofNat mc.nodeBufferCounter⟩ :
            SlotBuffer))).map Prod.fst =
      (getLSCNode g i mc).map fun p ↦ SlotKind.node.address contexts p.1 := by
  unfold getLSCNode
  rw [hc]
  dsimp only
  split
  · rfl
  · rw [nodeSlot_eq]
    split <;> rfl

private theorem map_getLSClass_address {mc : MContext σ} (hc : mc.classCache = []) :
    ((getLSClass g i mc).map fun (c, mc) ↦
        (SlotKind.lsClass.bufferMemory contexts i + UInt64.ofNat (64 * c.index),
          (⟨SlotKind.lsClass.bufferMemory contexts i, Int32.ofNat mc.classBufferCounter⟩ :
            SlotBuffer))).map Prod.fst =
      (getLSClass g i mc).map fun p ↦ SlotKind.lsClass.address contexts p.1 := by
  unfold getLSClass
  rw [hc]
  dsimp only
  split <;> rfl

/-- In every run the slots that are in use have lines of their own. -/
theorem MetadataLayout.ownLines (hL : MetadataLayout g blocks contexts)
    (hnode : g.nodeBufferSize.toNat ≤ 2 ^ 25) (hclass : g.classBufferSize.toNat ≤ 2 ^ 26)
    (hs : Reachable g R s) : OwnLines g contexts s := by
  have hsize (kind : SlotKind) : (kind.bufferSize g).toNat ≤ 2 ^ 26 := by
    cases kind with
    | node => exact hnode.trans (by decide)
    | lsClass => exact hclass
  have hindex {kind : SlotKind} {n : Slot} (hn : TakenFrom g (kind.counter s) n) :
      n.index < (kind.bufferSize g).toNat := hn.2.trans_le (hs.counter_le kind n.owner)
  constructor
  · intro kind n hn
    have hk := hindex hn
    cases kind with
    | node =>
      have hk : n.index < g.nodeBufferSize.toNat := hk
      rw [SlotKind.carve, carveLSCNode_eq hk (by omega), if_pos (by omega)]
      rfl
    | lsClass =>
      have hk : n.index < g.classBufferSize.toNat := hk
      rw [SlotKind.carve, carveLSClass_eq hk (by omega), Nat.mod_eq_of_lt (by omega)]
      rfl
  · intro i hc
    rw [carveLSCNode_eq_getLSCNode i hc (by omega) (hs.counter_le .node i)]
    exact map_getLSCNode_address hc
  · intro i hc
    rw [carveLSClass_eq_getLSClass i hc (by omega) (hs.counter_le .lsClass i)]
    exact map_getLSClass_address hc
  · intro kind n hn
    obtain ⟨b, hb, -, -, hwithin⟩ := hL.slot hn.1 (hsize kind) (hindex hn)
    exact ⟨b, hb, hwithin⟩
  · intro kind n hn
    obtain ⟨b, -, haddr, hdvd, -⟩ := hL.slot hn.1 (hsize kind) (hindex hn)
    rw [haddr]
    exact Nat.dvd_add hdvd (Nat.dvd_mul_right 64 n.index)
  · intro kind kind' n n' hn hn' he
    exact hL.eq_of_address hn.1 hn'.1 hsize (hindex hn) (hindex hn') he

/-- After a start-up whose requests are served no line of the cache belongs to the metadata of two
threads, and in every run a slot that is in use is one line of its buffer and of no other slot. -/
theorem exists_layout_ownLines (hg : g.Positive) (hnode : g.nodeBufferSize.toNat ≤ 2 ^ 25)
    (hclass : g.classBufferSize.toNat ≤ 2 ^ 26) (hrs : startUpRequests g = .ok rs)
    (hs : (serveAll rs h).2 = .ok h') (R : Generator σ) :
    ∃ contexts, MetadataLayout g (serveAll rs h).1 contexts ∧
      ∀ s, Reachable g R s → OwnLines g contexts s := by
  obtain ⟨contexts, hL⟩ := exists_layout hg hrs hs
  exact ⟨contexts, hL, fun s hs ↦ hL.ownLines hnode hclass hs⟩

end Runs

/-- Two threads in a heap of 16 pages, when each has carved two nodes and shared them. -/
theorem exists_layout_ownLines_two :
    let g := sharingOptions 2 2 0 100
    ∃ rs contexts, ∃ s : Sys Int32, startUpRequests g = .ok rs ∧
      MetadataLayout g (serveAll rs ⟨4096, 69632, 4096, fun _ ↦ 0⟩).1 contexts ∧
      (SlotKind.node.counter s 0 = 2 ∧ SlotKind.node.counter s 1 = 2) ∧ OwnLines g contexts s := by
  intro g
  have hg : g.Positive := ⟨by decide, by decide, by decide, by decide⟩
  obtain ⟨rs, hrs, hfits, hsize, hsum⟩ := exists_startUpRequests hg
    ⟨by decide, by decide, by decide⟩
  have hbytes : g.bookkeepingBytes < 2 ^ 20 := by decide
  have hserved : ∃ h', (serveAll rs ⟨4096, 69632, 4096, fun _ ↦ 0⟩).2 = .ok h' := by
    apply serveAll_of_room hfits
    · intro r hr hc
      have hr := hsize r hr hc
      have hthreads : g.threads = 2 := by decide
      omega
    · rw [hsum]
      decide
  obtain ⟨h', hs⟩ := hserved
  obtain ⟨contexts, hL, hlines⟩ :=
    exists_layout_ownLines hg (by decide) (by decide) hrs hs (schrage g)
  obtain ⟨s, hreach, hcounter⟩ := exists_of_endsIn g (schrage g)
    (List.replicate 6 [0, 1]).flatten
    (fun s ↦ SlotKind.node.counter s 0 = 2 ∧ SlotKind.node.counter s 1 = 2)
    (by decide +kernel) (by decide)
  exact ⟨rs, contexts, s, hrs, hL, hcounter, hlines s hreach⟩

end Acdc
