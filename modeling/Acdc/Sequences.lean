import Acdc.Links
import Mathlib.Data.List.InsertIdx

/-!
# Lists of nodes as sequences

Any number of doubly-linked lists in one memory, under the operations of
`src/lifetime-class.c:11–58`. As long as no node is in two lists and only nodes in no list are
inserted, every operation is one on the sequence of its list, and the others stay as they are.
-/

namespace Acdc

open DList

variable {κ : Type}

/-- A call of `src/lifetime-class.c:11–58` on one of the lists. -/
inductive ListCall (κ : Type) where
  | insertAfter (list : κ) (after c : Slot)
  | insertBefore (list : κ) (before c : Slot)
  | insertBeginning (list : κ) (c : Slot)
  | insertEnd (list : κ) (c : Slot)
  | remove (list : κ) (c : Slot)
  deriving DecidableEq, Repr

namespace ListCall

/-- The list of a call. -/
def list : ListCall κ → κ
  | insertAfter list _ _ | insertBefore list _ _ | insertBeginning list _ | insertEnd list _
  | remove list _ => list

/-- The node that a call inserts or removes. -/
def node : ListCall κ → Slot
  | insertAfter _ _ c | insertBefore _ _ c | insertBeginning _ c | insertEnd _ c
  | remove _ c => c

/-- A call in memory. -/
def exec [DecidableEq κ] (m : Store κ Slot) : ListCall κ → Store κ Slot
  | insertAfter list after c => lclassInsertAfter m list after c
  | insertBefore list before c => lclassInsertBefore m list before c
  | insertBeginning list c => lclassInsertBeginning m list c
  | insertEnd list c => lclassInsertEnd m list c
  | remove list c => lclassRemove m list c

/-- A call on the sequence of its list. -/
def edit (l : List Slot) : ListCall κ → List Slot
  | insertAfter _ after c => l.insertIdx (l.idxOf after + 1) c
  | insertBefore _ before c => l.insertIdx (l.idxOf before) c
  | insertBeginning _ c => c :: l
  | insertEnd _ c => l ++ [c]
  | remove _ c => l.erase c

/-- A call on the sequences of all lists. -/
def apply [DecidableEq κ] (f : κ → List Slot) (call : ListCall κ) : κ → List Slot :=
  Function.update f call.list (call.edit (f call.list))

/-- The nodes that a call names besides an inserted one are in its list; an inserted node is in
no list. -/
def Fits (f : κ → List Slot) : ListCall κ → Prop
  | insertAfter list after c => after ∈ f list ∧ ∀ k, c ∉ f k
  | insertBefore list before c => before ∈ f list ∧ ∀ k, c ∉ f k
  | insertBeginning _ c | insertEnd _ c => ∀ k, c ∉ f k
  | remove list c => c ∈ f list

/-- Every call of a sequence fits the lists that it finds. -/
def AllFit [DecidableEq κ] (f : κ → List Slot) : List (ListCall κ) → Prop
  | [] => True
  | call :: calls => call.Fits f ∧ AllFit (call.apply f) calls

/-! ### Positions -/

section Edit

variable {k : κ} {l₁ l₂ : List Slot} {a c : Slot}

private theorem insertIdx_length (l₁ l₂ : List Slot) (c : Slot) :
    (l₁ ++ l₂).insertIdx l₁.length c = l₁ ++ c :: l₂ := by
  induction l₁ with
  | nil => rfl
  | cons b l₁ ih =>
    rw [List.cons_append, List.length_cons, List.insertIdx_succ_cons, ih]
    rfl

private theorem idxOf_eq (h : a ∉ l₁) : (l₁ ++ a :: l₂).idxOf a = l₁.length := by
  rw [List.idxOf_append_of_notMem h, List.idxOf_cons_self, Nat.add_zero]

theorem edit_insertAfter (h : a ∉ l₁) :
    (insertAfter k a c).edit (l₁ ++ a :: l₂) = l₁ ++ a :: c :: l₂ := by
  have hp := insertIdx_length (l₁ ++ [a]) l₂ c
  rw [List.length_append, List.length_singleton, List.append_assoc, List.append_assoc] at hp
  rw [edit, idxOf_eq h]
  exact hp

theorem edit_insertBefore (h : a ∉ l₁) :
    (insertBefore k a c).edit (l₁ ++ a :: l₂) = l₁ ++ c :: a :: l₂ := by
  rw [edit, idxOf_eq h, insertIdx_length]

theorem edit_remove (h : c ∉ l₁) : (remove k c).edit (l₁ ++ c :: l₂) = l₁ ++ l₂ := by
  rw [edit, List.erase_append_right _ h, List.erase_cons_head]

end Edit

/-! ### Refinement -/

section Refinement

variable [DecidableEq κ] {m : Store κ Slot} {f : κ → List Slot} {call : ListCall κ}

private theorem exists_split {l : List Slot} {a : Slot} (h : a ∈ l) :
    ∃ l₁ l₂, l = l₁ ++ a :: l₂ ∧ a ∉ l₁ := by
  obtain ⟨l₁, l₂, ha, hl, -⟩ := List.exists_erase_eq h
  exact ⟨l₁, l₂, hl, ha⟩

-- What a call does: an insertion links the node in between two parts of its list, a removal
-- leaves it out between two parts.
private theorem exec_cases (h : m.Holds f fun _ ↦ .both) (hc : call.Fits f) :
    (∃ l₁ l₂, f call.list = l₁ ++ l₂ ∧ call.edit (f call.list) = l₁ ++ call.node :: l₂ ∧
      (∀ k, call.node ∉ f k) ∧
        call.exec m = m.link call.list l₁.getLast? l₂.head? call.node) ∨
    ∃ l₁ l₂, f call.list = l₁ ++ call.node :: l₂ ∧ call.edit (f call.list) = l₁ ++ l₂ ∧
      call.exec m = m.unlink call.list l₁.getLast? l₂.head? := by
  have hat : m.WellFormed call.list (f call.list) := h.at_list call.list
  cases call with
  | insertAfter k a c =>
    obtain ⟨ha, hc⟩ := hc
    obtain ⟨l₁, l₂, hk, hn⟩ := exists_split ha
    rw [list, hk] at hat
    have hca : c ≠ a := fun he ↦ hc k (he ▸ ha)
    have hs : l₁ ++ [a] ++ l₂ = l₁ ++ a :: l₂ := List.append_cons .. ▸ rfl
    refine .inl ⟨l₁ ++ [a], l₂, hs ▸ hk, ?_, hc, hat.insertAfter_eq hca⟩
    rw [list, hk, edit_insertAfter hn, List.append_assoc, List.singleton_append]
    rfl
  | insertBefore k a c =>
    obtain ⟨ha, hc⟩ := hc
    obtain ⟨l₁, l₂, hk, hn⟩ := exists_split ha
    rw [list, hk] at hat
    have hca : c ≠ a := fun he ↦ hc k (he ▸ ha)
    refine .inl ⟨l₁, a :: l₂, hk, ?_, hc, hat.insertBefore_eq hca⟩
    rw [list, hk, edit_insertBefore hn]
    rfl
  | insertBeginning k c => exact .inl ⟨[], f k, rfl, rfl, hc, hat.insertBeginning_eq (hc k)⟩
  | insertEnd k c =>
    exact .inl ⟨f k, [], (List.append_nil _).symm, rfl, hc, hat.forward.insertEnd_eq (hc k)⟩
  | remove k c =>
    obtain ⟨l₁, l₂, hk, hn⟩ := exists_split hc
    have hd := h.separate.nodup k
    rw [list, hk] at hat
    rw [hk] at hd
    refine .inr ⟨l₁, l₂, hk, ?_, hat.remove_eq hd⟩
    rw [list, hk, edit_remove hn]

/-- A call in memory is the call on the sequences. -/
theorem exec_holds (h : m.Holds f fun _ ↦ .both) (hc : call.Fits f) :
    (call.exec m).Holds (call.apply f) fun _ ↦ .both := by
  obtain ⟨l₁, l₂, hk, he, hc, hx⟩ | ⟨l₁, l₂, hk, he, hx⟩ := exec_cases h hc
  · rw [apply, he, hx]
    exact h.link rfl hk hc
  · rw [apply, he, hx]
    exact h.unlink rfl hk

/-- A call writes its node, its list and the nodes of that list. -/
theorem exec_only (h : m.Holds f fun _ ↦ .both) (hc : call.Fits f) :
    Store.Only m (call.exec m) call.list (call.node :: f call.list) := by
  obtain ⟨l₁, l₂, hk, -, -, hx⟩ | ⟨l₁, l₂, hk, -, hx⟩ := exec_cases h hc
  · rw [hx, hk]
    exact Store.only_link
  · rw [hx, hk]
    apply Store.only_unlink.mono
    intro a ha
    obtain ha | ha := List.mem_append.mp ha
    · exact List.mem_cons_of_mem _ (List.mem_append_left _ ha)
    · exact List.mem_cons_of_mem _ (List.mem_append_right _ (List.mem_cons_of_mem _ ha))

/-- Calls in memory are the calls on the sequences. -/
theorem execAll_holds (calls : List (ListCall κ)) (h : m.Holds f fun _ ↦ .both)
    (hc : AllFit f calls) : (calls.foldl exec m).Holds (calls.foldl apply f) fun _ ↦ .both := by
  induction calls generalizing m f with
  | nil => exact h
  | cons call calls ih =>
    obtain ⟨hc, hcs⟩ := hc
    exact ih (exec_holds h hc) hcs

omit [DecidableEq κ] in
/-- A call that fits names nodes of its own list and nodes in no list. -/
theorem Fits.notMem (hs : Separate f) (hc : call.Fits f) {k : κ} (hk : k ≠ call.list) :
    call.node ∉ f k := by
  intro hn
  cases call with
  | insertAfter _ _ _ | insertBefore _ _ _ => exact hc.2 k hn
  | insertBeginning _ _ | insertEnd _ _ => exact hc k hn
  | remove _ _ => exact hk (hs.disjoint _ _ _ hn hc)

/-- In a memory of lists, no node of which is in two of them, every call on a list yields the
list of the edited sequence and writes nothing of the others, and so do calls one after the
other. -/
theorem exec_refines (hs : Separate f) (hw : ∀ k, m.WellFormed k (f k)) :
    (∀ call : ListCall κ, call.Fits f →
      (call.exec m).WellFormed call.list (call.edit (f call.list)) ∧
        (∀ a, a ≠ call.node → a ∉ f call.list → (call.exec m).links a = m.links a) ∧
          ∀ k, k ≠ call.list → (call.exec m).ends k = m.ends k ∧
            ∀ a ∈ f k, (call.exec m).links a = m.links a) ∧
    ∀ calls, AllFit f calls → Separate (calls.foldl apply f) ∧
      ∀ k, (calls.foldl exec m).WellFormed k (calls.foldl apply f k) := by
  have h : m.Holds f fun _ ↦ .both := ⟨hs, hw⟩
  constructor
  · intro call hc
    have ho := exec_only h hc
    have hlinks (a : Slot) (hn : a ≠ call.node) (hl : a ∉ f call.list) :
        (call.exec m).links a = m.links a := by
      apply ho.links
      rw [List.mem_cons, not_or]
      exact ⟨hn, hl⟩
    refine ⟨?_, hlinks, fun k hk ↦ ⟨ho.ends k hk, fun a ha ↦ ?_⟩⟩
    · have hl := (exec_holds h hc).at_list call.list
      rwa [apply, Function.update_self] at hl
    · apply hlinks a (ne_of_mem_of_not_mem ha (hc.notMem hs hk))
      exact fun hl ↦ hk (hs.disjoint _ _ _ ha hl)
  · intro calls hc
    have hl := execAll_holds calls h hc
    exact ⟨hl.separate, hl.at_list⟩

/-- Two lists that are built from nothing. -/
theorem exec_refines_two :
    let m : Store Bool Slot := ⟨fun _ ↦ ⟨none, none⟩, fun _ ↦ ⟨none, none⟩⟩
    let calls := [insertEnd true ⟨0, 0⟩, insertBefore true ⟨0, 0⟩ ⟨0, 1⟩, insertEnd false ⟨0, 2⟩,
      insertAfter true ⟨0, 1⟩ ⟨0, 3⟩, insertBeginning false ⟨0, 4⟩, remove true ⟨0, 0⟩]
    (calls.foldl exec m).WellFormed true [⟨0, 1⟩, ⟨0, 3⟩] ∧
      (calls.foldl exec m).WellFormed false [⟨0, 4⟩, ⟨0, 2⟩] := by
  intro m calls
  have hs : Separate fun _ : Bool ↦ ([] : List Slot) := ⟨fun _ ↦ List.nodup_nil, nofun⟩
  have hw (k : Bool) : m.WellFormed k [] := ⟨rfl, rfl⟩
  have hc : AllFit (fun _ : Bool ↦ ([] : List Slot)) calls := by
    simp [calls, AllFit, Fits, apply, list, edit]
  have h := ((exec_refines hs hw).2 calls hc).2
  exact ⟨h true, h false⟩

end Refinement

end ListCall

end Acdc
