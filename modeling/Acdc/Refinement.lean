import Acdc.WellLinked

/-!
# Runs on lists and runs on links

The runs of `Acdc.Machine` have lists where the source has links. Every such run is one on
links, and the code that follows them finds the nodes, in their order, that the lists have. That
a fetch may leave a lifetime-class without some of its previous links changes nothing of this.
A class buffer of more than `2 ^ 26` slots is excluded: it goes round.
-/

namespace Acdc

open DList

variable {σ : Type} {g : GOptions} {R : Generator σ} {i : Nat} {s : Sys σ} {L : Links}

/-! ### What links represent -/

/-- The lists of a state, as the code finds them in memory. Only the ends of a lifetime-class
whose nodes are being removed are not valid. -/
structure Represents (g : GOptions) (s : Sys σ) (L : Links) : Prop where
  separate : Separate (contents g s)
  heapClass : ∀ i k, ((s.threads i).pc.inRemoval = true →
      k ≠ heapClassRemoveIndex g (s.threads i).mc.time) →
    L.nodes.Forward (.heapClass i k) (slots ((s.threads i).mc.heapClass.getD k []))
  iterator : ∀ i, (s.threads i).pc.inRemoval = true →
    Seg (fun a ↦ (L.nodes.links a).next) (remaining g (s.threads i))
      (L.nodes.ends (.iterator i)).first none
  shared : ∀ r k, L.nodes.WellFormed (.shared r k) (slots ((s.pools r).getD k []))
  nodeCache : ∀ i, L.nodes.WellFormed (.nodeCache i) (s.threads i).mc.nodeCache
  classCache : ∀ i, L.classes.WellFormed i (s.threads i).mc.classCache

/-- The slots that a thread takes next are the same on lists and on links. -/
structure TakesSame (g : GOptions) (i : Nat) (s : Sys σ) (L : Links) : Prop where
  node : ∀ node mc, getLSCNode g i (s.threads i).mc = .ok (node, mc) →
    (L.getLSCNode i (s.threads i).mc.nodeBufferCounter).map Prod.fst = .ok node
  lsClass : ∀ c mc, getLSClass g i (s.threads i).mc = .ok (c, mc) →
    (L.getLSClass i (s.threads i).mc.classBufferCounter).map Prod.fst = .ok c
  expired : ∀ node, (s.threads i).pc = .deallocating node ∨ (s.threads i).pc = .recycling node →
    (L.nodes.ends (.iterator i)).first = some node.slot

/-- A slot is taken from the start of its list. -/
theorem takeSlot_fst {κ : Type} [DecidableEq κ] {m : Store κ Slot} {list : κ} {l : List Slot}
    {fresh : Except Stop Slot} {c : Slot} (h : m.WellFormed list l)
    (hc : l.head?.elim fresh .ok = .ok c) : ∃ m', takeSlot m list fresh = .ok (c, m') := by
  rw [takeSlot, h.next.eq_head?]
  cases l with
  | nil =>
    obtain rfl : fresh = .ok c := hc
    exact ⟨_, rfl⟩
  | cons node l =>
    cases hc
    exact ⟨_, rfl⟩

theorem getLSCNode_fst {mc mc' : MContext σ} {node : Slot}
    (h : getLSCNode g i mc = .ok (node, mc')) :
    mc.nodeCache.head?.elim (nodeSlot i mc.nodeBufferCounter) .ok = .ok node := by
  unfold getLSCNode at h
  split at h
  · next hc =>
    cases h
    rw [hc]
    rfl
  · next hc =>
    split at h
    · cases h
    · obtain ⟨node', hn, h⟩ := bind_eq_ok h
      obtain ⟨rfl, -⟩ := Prod.mk.inj (Except.ok.inj h)
      rw [hc, List.head?_nil, Option.elim_none, hn]

theorem getLSClass_fst {mc mc' : MContext σ} {c : Slot}
    (h : getLSClass g i mc = .ok (c, mc')) :
    mc.classCache.head?.elim (.ok (classSlot i mc.classBufferCounter)) .ok =
      (.ok c : Except Stop Slot) := by
  unfold getLSClass at h
  split at h
  · next hc =>
    cases h
    rw [hc]
    rfl
  · next hc =>
    split at h
    · cases h
    · cases h
      rw [hc]
      rfl

theorem Represents.takesSame (h : Represents g s L) (i : Nat) : TakesSame g i s L where
  node node mc ht := by
    obtain ⟨m, hm⟩ := takeSlot_fst (h.nodeCache i) (getLSCNode_fst ht)
    rw [Links.getLSCNode, hm]
    rfl
  lsClass c mc ht := by
    obtain ⟨m, hm⟩ := takeSlot_fst (h.classCache i) (getLSClass_fst ht)
    rw [Links.getLSClass, hm]
    rfl
  expired node hpc := by
    obtain ⟨hr, hrem⟩ := remaining_of_held (g := g) node hpc
    have hseg := (h.iterator i hr).eq_head?
    rw [hrem] at hseg
    exact hseg

/-! ### Runs -/

/-- In every run links represent the lists, as long as no class slot is carved twice. -/
theorem Linked.represents (hw : g.HasWheel) (h : Linked g R (fun _ _ ↦ True) s L)
    (hA : SlotsApart s) : Represents g s L := by
  have hnodes := h.chainedNodes (p := false) hw nofun
  have hclasses := h.chainedClasses hw hA
  refine ⟨hnodes.holds.separate, fun i k hk ↦ ?_, fun i hr ↦ ?_, ?_, ?_, hclasses.holds.at_list⟩
  · have hat := hnodes.holds.at_list (.heapClass i k)
    have hin : ¬ ((s.threads i).pc.inRemoval = true ∧
        k = heapClassRemoveIndex g (s.threads i).mc.time) := fun hin ↦ hk hin.1 hin.2
    rw [contents, level, if_neg hin, if_neg hin] at hat
    exact hat
  · have hat := hnodes.holds.at_list (.iterator i)
    rw [contents, level, if_pos hr] at hat
    exact hat
  · exact fun r k ↦ hnodes.holds.at_list (.shared r k)
  · exact fun i ↦ hnodes.holds.at_list (.nodeCache i)

/-- The runs on lists are those on links: these represent the lists of the state, and whenever a
thread takes a step, they can follow it. -/
theorem runs_represented (hD : 0 ≤ g.deallocationDelay.toInt)
    (hC : g.classBufferSize.toNat ≤ 2 ^ 26) :
    (∀ s, Reachable g R s ↔ ∃ L, Linked g R (fun _ _ ↦ True) s L) ∧
    ∀ s L, Linked g R (fun _ _ ↦ True) s L →
      Represents g s L ∧ (∀ i, TakesSame g i s L) ∧
      ∀ i s', i < g.threads → step g R i s = .ok s' →
        ∃ L', linkStep g R i s L = .ok L' ∧ Linked g R (fun _ _ ↦ True) s' L' := by
  have hw := GOptions.hasWheel hD
  constructor
  · intro s
    constructor
    · exact fun hs ↦ hs.exists_linked hw
    · rintro ⟨L, h⟩
      exact h.reachable
  · intro s L h
    have hrep := h.represents hw (h.reachable.slotsApart hC)
    refine ⟨hrep, hrep.takesSame, fun i s' hi hs ↦ ?_⟩
    obtain ⟨L', hL', -⟩ := h.exists_linkStep hw hs
    exact ⟨L', hL', .step i h hi hs hL' trivial⟩

/-- The second fetch of a thread that shares with itself leaves a node without its previous link,
and the links represent the lists. -/
theorem runs_represented_unlinked :
    ∃ s L, Linked selfSharing (schrage selfSharing) (fun _ _ ↦ True) s L ∧ ¬ WellLinked s L ∧
      Represents selfSharing s L := by
  have hw : selfSharing.HasWheel := GOptions.hasWheel (by decide)
  have hstart := Linked.start (P := FetchesApart selfSharing) (R := schrage selfSharing) noLinks
    (show Defined selfSharing by decide) (fun _ ↦ rfl) fun _ ↦ rfl
  obtain ⟨s, L, hs, hok, hapart⟩ := hstart.exists_of_leadsTo hw (List.replicate 11 0)
    (Q := fun s ↦ (step selfSharing (schrage selfSharing) 0 s).isOk = true ∧
      ¬ FetchesApart selfSharing 0 s) (by decide +kernel)
  have hi : 0 < selfSharing.threads := by decide
  have hrun := hs.mono (Q := fun _ _ ↦ True) fun _ _ _ ↦ trivial
  cases hstep : step selfSharing (schrage selfSharing) 0 s with
  | error e =>
    rw [hstep] at hok
    cases hok
  | ok s' =>
    have hsame := runs_represented (R := schrage selfSharing) (g := selfSharing) (by decide)
      (by decide)
    obtain ⟨L', hL', hrun'⟩ := (hsame.2 s L hrun).2.2 0 s' hi hstep
    refine ⟨s', L', hrun', fun hwell ↦ ?_, (hsame.2 s' L' hrun').1⟩
    have hA : SlotsApart s' := hrun'.reachable.slotsApart (by decide)
    exact hapart ((hs.wellLinked_iff hw hi hstep hL' hA).mp hwell)

end Acdc
