import Mathlib.Data.List.Nodup
import Mathlib.Logic.Function.Basic

/-!
# Doubly-linked lists

A memory of nodes with two links, and lists in it that are given by their first and last
node. A list may be linked forwards only, which is what walking it needs, or in both
directions, which is what removing a node needs. Every operation changes the nodes of its
own list and the node that it inserts; as long as no node is in two lists, the others stay
as they are.
-/

namespace DList

variable {κ ν : Type*}

/-! ### Segments -/

/-- Following `f` from `p` visits the nodes of a list and arrives at `q`. -/
def Seg (f : ν → Option ν) : List ν → Option ν → Option ν → Prop
  | [], p, q => p = q
  | a :: l, p, q => p = some a ∧ Seg f l (f a) q

section Seg

variable {f f' : ν → Option ν} {l l' l₁ l₂ : List ν} {p q r : Option ν} {a c : ν}

@[simp] theorem seg_nil : Seg f [] p q ↔ p = q := Iff.rfl

@[simp] theorem seg_cons : Seg f (a :: l) p q ↔ p = some a ∧ Seg f l (f a) q := Iff.rfl

theorem seg_append : Seg f (l ++ l') p r ↔ ∃ q, Seg f l p q ∧ Seg f l' q r := by
  induction l generalizing p with
  | nil => simp
  | cons a l ih => simp [ih, and_assoc]

theorem seg_snoc : Seg f (l ++ [a]) p q ↔ Seg f l p (some a) ∧ f a = q := by
  rw [seg_append]
  constructor
  · rintro ⟨r, hl, rfl, hq⟩
    exact ⟨hl, hq⟩
  · rintro ⟨hl, hq⟩
    exact ⟨some a, hl, rfl, hq⟩

/-- A segment depends on the links of the nodes that it visits. -/
theorem Seg.congr (h : Seg f l p q) (hf : ∀ a ∈ l, f' a = f a) : Seg f' l p q := by
  induction l generalizing p with
  | nil => exact h
  | cons a l ih =>
    refine ⟨h.1, ?_⟩
    rw [hf a List.mem_cons_self]
    exact ih h.2 fun b hb ↦ hf b (List.mem_cons_of_mem a hb)

/-- A walk to the end starts at the first node of its list. -/
theorem Seg.eq_head? (h : Seg f l p none) : p = l.head? := by
  cases l with
  | nil => exact h
  | cons a l => exact h.1

/-- The two parts of a walk to the end. -/
theorem seg_append_none :
    Seg f (l₁ ++ l₂) p none ↔ Seg f l₁ p l₂.head? ∧ Seg f l₂ l₂.head? none := by
  rw [seg_append]
  constructor
  · rintro ⟨q, h₁, h₂⟩
    rw [h₂.eq_head?] at h₁ h₂
    exact ⟨h₁, h₂⟩
  · rintro ⟨h₁, h₂⟩
    exact ⟨l₂.head?, h₁, h₂⟩

/-- The links lead to one list. -/
theorem Seg.unique (h : Seg f l p none) (h' : Seg f l' p none) : l = l' := by
  induction l generalizing l' p with
  | nil =>
    obtain rfl : p = none := h
    exact (List.head?_eq_none_iff.mp h'.eq_head?.symm).symm
  | cons a l ih =>
    obtain ⟨rfl, hl⟩ := h
    cases l' with
    | nil => cases h'
    | cons b l' =>
      obtain ⟨hb, hl'⟩ := h'
      cases hb
      rw [ih hl hl']

/-- On the way to a node every link leads to a node. -/
theorem Seg.ne_none (h : Seg f l p (some a)) {b : ν} (hb : b ∈ l) : f b ≠ none := by
  induction l generalizing p with
  | nil => cases hb
  | cons c l ih =>
    obtain ⟨-, hl⟩ := h
    obtain rfl | hb := List.mem_cons.mp hb
    · cases l with
      | nil =>
        rw [show f b = some a from hl]
        nofun
      | cons d l =>
        rw [hl.1]
        nofun
    · exact ih hl hb

/-- The nodes of the second part are not the last of the first. -/
theorem getLast?_ne_of_mem (hl : (l₁ ++ l₂).Nodup) (ha : a ∈ l₂) : l₁.getLast? ≠ some a :=
  fun h ↦ (List.nodup_append.mp hl).2.2 a (List.mem_of_getLast? h) a ha rfl

variable [DecidableEq ν]

/-- The last link of a segment is redirected, or its start where it is empty. -/
theorem Seg.redirect (h : Seg f l p q) (hl : l.Nodup)
    (hf : ∀ a ∈ l, f' a = if l.getLast? = some a then r else f a) :
    Seg f' l (if l.getLast? = none then r else p) r := by
  obtain rfl | ⟨l, z, rfl⟩ := List.eq_nil_or_concat' l
  · simp
  · rw [List.getLast?_concat] at hf ⊢
    rw [if_neg (Option.some_ne_none z), seg_snoc]
    constructor
    · apply (seg_snoc.mp h).1.congr
      intro a ha
      have hza : z ≠ a := by
        intro he
        exact (List.nodup_append.mp hl).2.2 a ha z List.mem_cons_self he.symm
      rw [hf a (List.mem_append_left _ ha), if_neg fun he ↦ hza (Option.some.inj he)]
    · rw [hf z List.mem_concat_self, if_pos rfl]

/-- A node is linked in between two parts of a list. -/
theorem Seg.insert (h : Seg f (l₁ ++ l₂) p none) (hl : (l₁ ++ l₂).Nodup) (hc : c ∉ l₁ ++ l₂)
    (hf : ∀ a, f' a = if l₁.getLast? = some a then some c else if a = c then l₂.head? else f a) :
    Seg f' (l₁ ++ c :: l₂) (if l₁.getLast? = none then some c else p) none := by
  obtain ⟨h₁, h₂⟩ := seg_append_none.mp h
  have hc₁ : c ∉ l₁ := fun ha ↦ hc (List.mem_append_left l₂ ha)
  have hc₂ : c ∉ l₂ := fun ha ↦ hc (List.mem_append_right l₁ ha)
  rw [seg_append]
  refine ⟨some c, ?_, rfl, ?_⟩
  · apply h₁.redirect (List.Nodup.of_append_left hl)
    intro a ha
    rw [hf, if_neg (ne_of_mem_of_not_mem ha hc₁)]
  · rw [hf c, if_neg fun hz ↦ hc₁ (List.mem_of_getLast? hz), if_pos rfl]
    apply h₂.congr
    intro a ha
    rw [hf, if_neg (getLast?_ne_of_mem hl ha), if_neg (ne_of_mem_of_not_mem ha hc₂)]

/-- A node is left out between two parts of a list. -/
theorem Seg.erase (h : Seg f (l₁ ++ c :: l₂) p none) (hl : (l₁ ++ c :: l₂).Nodup)
    (hf : ∀ a, f' a = if l₁.getLast? = some a then l₂.head? else f a) :
    Seg f' (l₁ ++ l₂) (if l₁.getLast? = none then l₂.head? else p) none := by
  obtain ⟨h₁, h₂⟩ := seg_append_none.mp h
  have h₂' := h₂.2
  rw [h₂'.eq_head?] at h₂'
  rw [seg_append_none]
  constructor
  · apply h₁.redirect (List.Nodup.of_append_left hl)
    exact fun a _ ↦ hf a
  · apply h₂'.congr
    intro a ha
    rw [hf, if_neg (getLast?_ne_of_mem hl (List.mem_cons_of_mem c ha))]
end Seg

/-! ### Lists in memory -/

/-- Links of a node. -/
structure Node (ν : Type*) where
  prev : Option ν
  next : Option ν
  deriving DecidableEq, Repr

/-- First and last node of a list. -/
structure Ends (ν : Type*) where
  first : Option ν
  last : Option ν
  deriving DecidableEq, Repr

/-- A memory of nodes and of lists by their names. -/
@[ext] structure Store (κ ν : Type*) where
  links : ν → Node ν
  ends : κ → Ends ν

namespace Store

section Fields

variable (s : Store κ ν) (a : ν) (k : κ) (p : Option ν)

section
variable [DecidableEq ν]

def setPrev : Store κ ν :=
  { s with links := Function.update s.links a { s.links a with prev := p } }

def setNext : Store κ ν :=
  { s with links := Function.update s.links a { s.links a with next := p } }

@[simp] theorem setPrev_links : (s.setPrev a p).links =
    Function.update s.links a { s.links a with prev := p } := rfl

@[simp] theorem setPrev_ends : (s.setPrev a p).ends = s.ends := rfl

@[simp] theorem setNext_links : (s.setNext a p).links =
    Function.update s.links a { s.links a with next := p } := rfl

@[simp] theorem setNext_ends : (s.setNext a p).ends = s.ends := rfl

theorem setPrev_setNext (q : Option ν) :
    (s.setPrev a p).setNext a q = { s with links := Function.update s.links a ⟨p, q⟩ } := by
  ext1
  · simp only [setNext_links, setPrev_links, Function.update_self, Function.update_idem]
  · rfl

theorem setNext_setPrev (q : Option ν) :
    (s.setNext a q).setPrev a p = { s with links := Function.update s.links a ⟨p, q⟩ } := by
  ext1
  · simp only [setNext_links, setPrev_links, Function.update_self, Function.update_idem]
  · rfl

end

section
variable [DecidableEq κ]

def setFirst : Store κ ν :=
  { s with ends := Function.update s.ends k { s.ends k with first := p } }

def setLast : Store κ ν :=
  { s with ends := Function.update s.ends k { s.ends k with last := p } }

@[simp] theorem setFirst_links : (s.setFirst k p).links = s.links := rfl

@[simp] theorem setFirst_ends : (s.setFirst k p).ends =
    Function.update s.ends k { s.ends k with first := p } := rfl

@[simp] theorem setLast_links : (s.setLast k p).links = s.links := rfl

@[simp] theorem setLast_ends : (s.setLast k p).ends =
    Function.update s.ends k { s.ends k with last := p } := rfl

theorem setFirst_setLast (q : Option ν) :
    (s.setFirst k p).setLast k q = { s with ends := Function.update s.ends k ⟨p, q⟩ } := by
  ext1
  · rfl
  · simp only [setLast_ends, setFirst_ends, Function.update_self, Function.update_idem]

end

end Fields

variable [DecidableEq κ] [DecidableEq ν]

/-- Insertion of `c` after a node of list `k`. -/
def insertAfter (s : Store κ ν) (k : κ) (after c : ν) : Store κ ν :=
  let s := s.setPrev c (some after)
  let s := s.setNext c (s.links after).next
  let s := match (s.links after).next with
    | none => s.setLast k (some c)
    | some n => s.setPrev n (some c)
  s.setNext after (some c)

/-- Insertion of `c` before a node of list `k`. -/
def insertBefore (s : Store κ ν) (k : κ) (before c : ν) : Store κ ν :=
  let s := s.setPrev c (s.links before).prev
  let s := s.setNext c (some before)
  let s := match (s.links before).prev with
    | none => s.setFirst k (some c)
    | some p => s.setNext p (some c)
  s.setPrev before (some c)

/-- Insertion of `c` at the beginning of list `k`. -/
def insertBeginning (s : Store κ ν) (k : κ) (c : ν) : Store κ ν :=
  match (s.ends k).first with
  | none =>
    let s := s.setFirst k (some c)
    let s := s.setLast k (some c)
    let s := s.setPrev c none
    s.setNext c none
  | some first => s.insertBefore k first c

/-- Insertion of `c` at the end of list `k`. -/
def insertEnd (s : Store κ ν) (k : κ) (c : ν) : Store κ ν :=
  match (s.ends k).last with
  | none => s.insertBeginning k c
  | some last => s.insertAfter k last c

/-- Removal of node `c` of list `k`. -/
def remove (s : Store κ ν) (k : κ) (c : ν) : Store κ ν :=
  let s := match (s.links c).prev with
    | none => s.setFirst k (s.links c).next
    | some p => s.setNext p (s.links c).next
  match (s.links c).next with
  | none => s.setLast k (s.links c).prev
  | some n => s.setPrev n (s.links c).prev

/-- List `k` is linked forwards, from its first to its last node. -/
structure Forward (s : Store κ ν) (k : κ) (l : List ν) : Prop where
  next : Seg (fun a ↦ (s.links a).next) l (s.ends k).first none
  last : (s.ends k).last = l.getLast?

/-- List `k` is linked in both directions: the next links lead from its first node through
`l` to the end, and the previous links from its last node through the reverse. -/
structure WellFormed (s : Store κ ν) (k : κ) (l : List ν) : Prop where
  next : Seg (fun a ↦ (s.links a).next) l (s.ends k).first none
  prev : Seg (fun a ↦ (s.links a).prev) l.reverse (s.ends k).last none

/-! ### What the operations write -/

/-- The next link of `p`, or the first node of list `k`. -/
def setAfter (s : Store κ ν) (k : κ) (p x : Option ν) : Store κ ν :=
  match p with
  | none => s.setFirst k x
  | some a => s.setNext a x

/-- The previous link of `q`, or the last node of list `k`. -/
def setBefore (s : Store κ ν) (k : κ) (q x : Option ν) : Store κ ν :=
  match q with
  | none => s.setLast k x
  | some b => s.setPrev b x

/-- Node `c` is linked in between `p` and `q`. -/
def link (s : Store κ ν) (k : κ) (p q : Option ν) (c : ν) : Store κ ν :=
  let s := { s with links := Function.update s.links c ⟨p, q⟩ }
  let s := s.setAfter k p (some c)
  s.setBefore k q (some c)

/-- What lies between `p` and `q` is left out. -/
def unlink (s : Store κ ν) (k : κ) (p q : Option ν) : Store κ ν :=
  let s := s.setAfter k p q
  s.setBefore k q p

section Effects

variable {s : Store κ ν} {k k' : κ} {a b c : ν} {p q x y : Option ν}

theorem setAfter_links :
    (s.setAfter k p x).links a =
      if p = some a then { s.links a with next := x } else s.links a := by
  cases p with
  | none => rfl
  | some b =>
    rw [setAfter, setNext_links, Function.update_apply]
    by_cases h : a = b
    · rw [if_pos h, if_pos (congrArg some h.symm), h]
    · rw [if_neg h, if_neg fun he ↦ h (Option.some.inj he).symm]

theorem setBefore_links :
    (s.setBefore k q x).links a =
      if q = some a then { s.links a with prev := x } else s.links a := by
  cases q with
  | none => rfl
  | some b =>
    rw [setBefore, setPrev_links, Function.update_apply]
    by_cases h : a = b
    · rw [if_pos h, if_pos (congrArg some h.symm), h]
    · rw [if_neg h, if_neg fun he ↦ h (Option.some.inj he).symm]

theorem setAfter_ends :
    (s.setAfter k p x).ends k = if p = none then { s.ends k with first := x } else s.ends k := by
  cases p with
  | none => exact Function.update_self ..
  | some b => rfl

theorem setBefore_ends :
    (s.setBefore k q x).ends k = if q = none then { s.ends k with last := x } else s.ends k := by
  cases q with
  | none => exact Function.update_self ..
  | some b => rfl

theorem setAfter_ends_ne (h : k' ≠ k) : (s.setAfter k p x).ends k' = s.ends k' := by
  cases p with
  | none => exact Function.update_of_ne h _ _
  | some b => rfl

theorem setBefore_ends_ne (h : k' ≠ k) : (s.setBefore k q x).ends k' = s.ends k' := by
  cases q with
  | none => exact Function.update_of_ne h _ _
  | some b => rfl

/-- Next links and previous links are written apart. -/
theorem setBefore_setAfter :
    (s.setBefore k q y).setAfter k p x = (s.setAfter k p x).setBefore k q y := by
  ext1
  · funext a
    simp only [setAfter_links, setBefore_links]
    split <;> split <;> rfl
  · funext j
    by_cases hj : j = k
    · subst hj
      simp only [setAfter_ends, setBefore_ends]
      split <;> split <;> rfl
    · rw [setAfter_ends_ne hj, setBefore_ends_ne hj, setBefore_ends_ne hj, setAfter_ends_ne hj]

theorem link_next : ((s.link k p q c).links a).next =
    if p = some a then some c else if a = c then q else (s.links a).next := by
  simp only [link, setAfter_links, setBefore_links, Function.update_apply]
  split <;> split <;> split <;> rfl

theorem link_prev : ((s.link k p q c).links a).prev =
    if q = some a then some c else if a = c then p else (s.links a).prev := by
  simp only [link, setAfter_links, setBefore_links, Function.update_apply]
  split <;> split <;> split <;> rfl

theorem link_ends : (s.link k p q c).ends k =
    ⟨if p = none then some c else (s.ends k).first,
      if q = none then some c else (s.ends k).last⟩ := by
  simp only [link, setAfter_ends, setBefore_ends]
  split <;> split <;> rfl

theorem unlink_next : ((s.unlink k p q).links a).next =
    if p = some a then q else (s.links a).next := by
  simp only [unlink, setAfter_links, setBefore_links]
  split <;> split <;> rfl

theorem unlink_prev : ((s.unlink k p q).links a).prev =
    if q = some a then p else (s.links a).prev := by
  simp only [unlink, setAfter_links, setBefore_links]
  split <;> split <;> rfl

theorem unlink_ends : (s.unlink k p q).ends k =
    ⟨if p = none then q else (s.ends k).first, if q = none then p else (s.ends k).last⟩ := by
  simp only [unlink, setAfter_ends, setBefore_ends]
  split <;> split <;> rfl

/-- Insertion after a node links `c` in between that node and its next one. -/
theorem insertAfter_eq (hc : c ≠ a) :
    s.insertAfter k a c = s.link k (some a) (s.links a).next c := by
  have hn : ((s.setPrev c (some a)).links a).next = (s.links a).next := by
    rw [setPrev_links, Function.update_of_ne hc.symm]
  rw [link, ← setBefore_setAfter]
  simp only [insertAfter, hn, setPrev_setNext, Function.update_of_ne hc.symm]
  rfl

/-- Insertion before a node links `c` in between its previous one and that node. -/
theorem insertBefore_eq (hc : c ≠ b) :
    s.insertBefore k b c = s.link k (s.links b).prev (some b) c := by
  simp only [insertBefore, setPrev_setNext, Function.update_of_ne hc.symm]
  rfl

/-- Insertion into an empty list. -/
theorem insertBeginning_nil (h : (s.ends k).first = none) :
    s.insertBeginning k c = s.link k none none c := by
  simp only [insertBeginning, h, setPrev_setNext]
  rfl

/-- Removal leaves out the node between its two neighbours. -/
theorem remove_eq (hc : (s.links c).prev ≠ some c) :
    s.remove k c = s.unlink k (s.links c).prev (s.links c).next := by
  have hs : (s.setAfter k (s.links c).prev (s.links c).next).links c = s.links c := by
    rw [setAfter_links, if_neg hc]
  change (let t := s.setAfter k (s.links c).prev (s.links c).next
    t.setBefore k (t.links c).next (t.links c).prev) = _
  simp only [hs]
  rfl

end Effects

/-! ### What the operations keep -/

/-- Nothing is written but list `k` and the nodes `X`. -/
structure Only (s s' : Store κ ν) (k : κ) (X : List ν) : Prop where
  links : ∀ a, a ∉ X → s'.links a = s.links a
  ends : ∀ k', k' ≠ k → s'.ends k' = s.ends k'

omit [DecidableEq κ] [DecidableEq ν] in
theorem Only.mono {s s' : Store κ ν} {k : κ} {X Y : List ν} (h : Only s s' k X) (hXY : X ⊆ Y) :
    Only s s' k Y where
  links a ha := h.links a fun haX ↦ ha (hXY haX)
  ends := h.ends

section Keep

variable {s s' : Store κ ν} {k k' : κ} {a b c : ν} {l l₁ l₂ : List ν}

/-- Linking a node in writes it and its neighbours. -/
theorem only_link : Only s (s.link k l₁.getLast? l₂.head? c) k (c :: (l₁ ++ l₂)) := by
  constructor
  · intro a ha
    have hac : a ≠ c := List.ne_of_not_mem_cons ha
    have hal : a ∉ l₁ ++ l₂ := List.not_mem_of_not_mem_cons ha
    have hp : l₁.getLast? ≠ some a :=
      fun hz ↦ hal (List.mem_append_left l₂ (List.mem_of_getLast? hz))
    have hq : l₂.head? ≠ some a :=
      fun hz ↦ hal (List.mem_append_right l₁ (List.mem_of_mem_head? hz))
    simp only [link, setAfter_links, setBefore_links, if_neg hp, if_neg hq,
      Function.update_of_ne hac]
  · intro k' hk
    rw [link, setBefore_ends_ne hk, setAfter_ends_ne hk]

/-- Leaving nodes out writes their neighbours. -/
theorem only_unlink : Only s (s.unlink k l₁.getLast? l₂.head?) k (l₁ ++ l₂) := by
  constructor
  · intro a ha
    have hp : l₁.getLast? ≠ some a :=
      fun hz ↦ ha (List.mem_append_left l₂ (List.mem_of_getLast? hz))
    have hq : l₂.head? ≠ some a :=
      fun hz ↦ ha (List.mem_append_right l₁ (List.mem_of_mem_head? hz))
    simp only [unlink, setAfter_links, setBefore_links, if_neg hp, if_neg hq]
  · intro k' hk
    rw [unlink, setBefore_ends_ne hk, setAfter_ends_ne hk]

omit [DecidableEq κ] [DecidableEq ν] in
theorem WellFormed.forward (h : s.WellFormed k l) : s.Forward k l where
  next := h.next
  last := by rw [h.prev.eq_head?, List.head?_reverse]

omit [DecidableEq κ] [DecidableEq ν] in
/-- The last node of a list. -/
theorem Forward.of_snoc {z : ν} (h : s.Forward k (l ++ [z])) :
    (s.ends k).last = some z ∧ Seg (fun a ↦ (s.links a).next) l (s.ends k).first (some z) ∧
      (s.links z).next = none := by
  obtain ⟨hn, hl⟩ := h
  rw [List.getLast?_concat] at hl
  exact ⟨hl, seg_snoc.mp hn⟩

omit [DecidableEq κ] [DecidableEq ν] in
/-- The neighbours of a node. -/
theorem WellFormed.neighbours (h : s.WellFormed k (l₁ ++ c :: l₂)) :
    s.links c = ⟨l₁.getLast?, l₂.head?⟩ := by
  have hn := (seg_append_none.mp h.next).2.2.eq_head?
  have hp := h.prev
  rw [List.reverse_append, List.reverse_cons, List.append_assoc, List.singleton_append] at hp
  have hp' := (seg_append_none.mp hp).2.2.eq_head?
  rw [List.head?_reverse] at hp'
  rw [← hn, ← hp']

/-- A node that is linked in joins the walk over the next links. -/
theorem link_seg (h : Seg (fun a ↦ (s.links a).next) (l₁ ++ l₂) (s.ends k).first none)
    (hl : (l₁ ++ l₂).Nodup) (hc : c ∉ l₁ ++ l₂) :
    Seg (fun a ↦ ((s.link k l₁.getLast? l₂.head? c).links a).next) (l₁ ++ c :: l₂)
      ((s.link k l₁.getLast? l₂.head? c).ends k).first none := by
  rw [link_ends]
  exact h.insert hl hc fun a ↦ link_next

/-- Linking a node in keeps a list well formed. -/
theorem WellFormed.link (h : s.WellFormed k (l₁ ++ l₂)) (hl : (l₁ ++ l₂).Nodup)
    (hc : c ∉ l₁ ++ l₂) : (s.link k l₁.getLast? l₂.head? c).WellFormed k (l₁ ++ c :: l₂) := by
  refine ⟨link_seg h.next hl hc, ?_⟩
  have hp := h.prev
  rw [← List.nodup_reverse, List.reverse_append] at hl
  rw [← List.mem_reverse, List.reverse_append] at hc
  rw [List.reverse_append] at hp
  rw [link_ends, List.reverse_append, List.reverse_cons, List.append_assoc,
    List.singleton_append, ← List.getLast?_reverse]
  apply hp.insert hl hc
  intro a
  rw [link_prev, List.getLast?_reverse, List.head?_reverse]

/-- Leaving a node out keeps a list well formed. -/
theorem WellFormed.unlink (h : s.WellFormed k (l₁ ++ c :: l₂)) (hl : (l₁ ++ c :: l₂).Nodup) :
    (s.unlink k l₁.getLast? l₂.head?).WellFormed k (l₁ ++ l₂) := by
  have hp := h.prev
  have hr : (l₁ ++ c :: l₂).reverse = l₂.reverse ++ c :: l₁.reverse := by
    rw [List.reverse_append, List.reverse_cons, List.append_assoc, List.singleton_append]
  constructor
  · rw [unlink_ends]
    exact h.next.erase hl fun a ↦ unlink_next
  · rw [hr] at hp
    rw [← List.nodup_reverse, hr] at hl
    rw [unlink_ends, List.reverse_append, ← List.getLast?_reverse, ← List.head?_reverse]
    apply hp.erase hl
    intro a
    rw [unlink_prev, List.getLast?_reverse]

/-- What each operation writes in a well-formed list. -/
theorem WellFormed.insertAfter_eq (h : s.WellFormed k (l₁ ++ a :: l₂)) (hc : c ≠ a) :
    s.insertAfter k a c = s.link k (l₁ ++ [a]).getLast? l₂.head? c := by
  rw [Store.insertAfter_eq hc, h.neighbours, List.getLast?_concat]

theorem WellFormed.insertBefore_eq (h : s.WellFormed k (l₁ ++ b :: l₂)) (hc : c ≠ b) :
    s.insertBefore k b c = s.link k l₁.getLast? (b :: l₂).head? c := by
  rw [Store.insertBefore_eq hc, h.neighbours, List.head?_cons]

theorem WellFormed.insertBeginning_eq (h : s.WellFormed k l) (hc : c ∉ l) :
    s.insertBeginning k c = s.link k [].getLast? l.head? c := by
  have hf := h.next.eq_head?
  cases l with
  | nil => exact insertBeginning_nil hf
  | cons a l =>
    rw [← List.nil_append (a :: l)] at h
    rw [insertBeginning, hf]
    exact h.insertBefore_eq (List.ne_of_not_mem_cons hc)

theorem WellFormed.remove_eq (h : s.WellFormed k (l₁ ++ c :: l₂)) (hl : (l₁ ++ c :: l₂).Nodup) :
    s.remove k c = s.unlink k l₁.getLast? l₂.head? := by
  have hc : (s.links c).prev ≠ some c := by
    rw [h.neighbours]
    exact getLast?_ne_of_mem hl List.mem_cons_self
  rw [Store.remove_eq hc, h.neighbours]

theorem Forward.insertEnd_eq (h : s.Forward k l) (hc : c ∉ l) :
    s.insertEnd k c = s.link k l.getLast? [].head? c := by
  rw [insertEnd, h.last]
  obtain rfl | ⟨l, z, rfl⟩ := List.eq_nil_or_concat' l
  · exact insertBeginning_nil h.next
  · have hcz : c ≠ z := fun he ↦ hc (he ▸ List.mem_concat_self)
    rw [List.getLast?_concat]
    simp only
    rw [Store.insertAfter_eq hcz, h.of_snoc.2.2, List.head?_nil]

/-- An insertion at the end keeps the forward links. -/
theorem Forward.insertEnd (h : s.Forward k l) (hl : l.Nodup) (hc : c ∉ l) :
    (s.insertEnd k c).Forward k (l ++ [c]) := by
  have hn := h.next
  rw [← List.append_nil l] at hn hl
  rw [h.insertEnd_eq hc]
  constructor
  · exact link_seg hn hl (by rwa [List.append_nil])
  · rw [link_ends, List.getLast?_concat]
    rfl

omit [DecidableEq κ] [DecidableEq ν] in
/-- Only the first node has no previous one. -/
theorem WellFormed.eq_of_prev (h : s.WellFormed k l) (ha : a ∈ l) (hb : b ∈ l)
    (hpa : (s.links a).prev = none) (hpb : (s.links b).prev = none) : a = b := by
  cases l with
  | nil => cases ha
  | cons c l =>
    have hprev := h.prev
    rw [List.reverse_cons, seg_snoc] at hprev
    have hfirst {x : ν} (hx : x ∈ c :: l) (hp : (s.links x).prev = none) : x = c := by
      obtain rfl | hx := List.mem_cons.mp hx
      · rfl
      · exact absurd hp (hprev.1.ne_none (List.mem_reverse.mpr hx))
    rw [hfirst ha hpa, hfirst hb hpb]

end Keep

/-! ### Several lists -/

/-- How much of the links of a list is known: nothing, that its next links lead from the first
node to the end, also which node is the last, or that it is well formed. -/
inductive Level where
  | stale
  | walk
  | forward
  | both
  deriving DecidableEq, Repr

/-- List `k` holds `l` as far as its level tells. -/
def At (s : Store κ ν) (k : κ) (l : List ν) : Level → Prop
  | .stale => True
  | .walk => Seg (fun a ↦ (s.links a).next) l (s.ends k).first none
  | .forward => s.Forward k l
  | .both => s.WellFormed k l

end Store

/-- No node occurs twice. -/
structure Separate (f : κ → List ν) : Prop where
  nodup : ∀ k, (f k).Nodup
  disjoint : ∀ k k' a, a ∈ f k → a ∈ f k' → k = k'

namespace Separate

variable [DecidableEq κ] {f : κ → List ν} {k k' : κ} {c : ν} {l : List ν}

/-- A list keeps some of its nodes. -/
theorem sublist (h : Separate f) (hl : l.Sublist (f k)) : Separate (Function.update f k l) := by
  have hmem (j : κ) (a : ν) (ha : a ∈ Function.update f k l j) : a ∈ f j := by
    by_cases hj : j = k
    · subst hj
      rw [Function.update_self] at ha
      exact hl.subset ha
    · rwa [Function.update_of_ne hj] at ha
  constructor
  · intro j
    by_cases hj : j = k
    · subst hj
      rw [Function.update_self]
      exact (h.nodup j).sublist hl
    · rw [Function.update_of_ne hj]
      exact h.nodup j
  · exact fun j j' a ha ha' ↦ h.disjoint j j' a (hmem j a ha) (hmem j' a ha')

/-- A list gains nodes that are in no list. -/
theorem append (h : Separate f) {l' : List ν} (hp : l.Perm (f k ++ l')) (hl : l'.Nodup)
    (hc : ∀ j, ∀ c ∈ l', c ∉ f j) : Separate (Function.update f k l) := by
  have hmem (j : κ) (a : ν) (ha : a ∈ Function.update f k l j) : a ∈ f j ∨ j = k ∧ a ∈ l' := by
    by_cases hj : j = k
    · subst hj
      rw [Function.update_self, hp.mem_iff, List.mem_append] at ha
      exact ha.imp_right fun h ↦ ⟨rfl, h⟩
    · rw [Function.update_of_ne hj] at ha
      exact .inl ha
  constructor
  · intro j
    by_cases hj : j = k
    · subst hj
      rw [Function.update_self, hp.nodup_iff]
      exact List.Nodup.append (h.nodup j) hl fun a ha ha' ↦ hc j a ha' ha
    · rw [Function.update_of_ne hj]
      exact h.nodup j
  · intro j j' a ha ha'
    obtain hb | ⟨rfl, hb⟩ := hmem j a ha
    · obtain hb' | ⟨rfl, hb'⟩ := hmem j' a ha'
      · exact h.disjoint j j' a hb hb'
      · exact absurd hb (hc j a hb')
    · obtain hb' | ⟨rfl, -⟩ := hmem j' a ha'
      · exact absurd hb' (hc j' a hb)
      · rfl

theorem cons (h : Separate f) (hc : ∀ j, c ∉ f j) (hp : l.Perm (c :: f k)) :
    Separate (Function.update f k l) :=
  h.append (hp.trans (List.perm_append_singleton c (f k)).symm) (List.nodup_singleton c)
    fun j _ ha ↦ List.mem_singleton.mp ha ▸ hc j

/-- A node that leaves its list is in none. -/
theorem notMem_update (h : Separate f) (hl : f k = c :: l) (j : κ) :
    c ∉ Function.update f k l j := by
  intro hj
  by_cases hjk : j = k
  · subst hjk
    have hnodup := h.nodup j
    rw [hl] at hnodup
    rw [Function.update_self] at hj
    exact (List.nodup_cons.mp hnodup).1 hj
  · rw [Function.update_of_ne hjk] at hj
    exact hjk (h.disjoint j k c hj (hl ▸ List.mem_cons_self))

/-- The nodes of one list move to another. -/
theorem move (h : Separate f) (hk : k ≠ k') :
    Separate (Function.update (Function.update f k []) k' (f k' ++ f k)) := by
  apply (h.sublist (List.nil_sublist (f k))).append _ (h.nodup k)
  · intro j a ha
    by_cases hj : j = k
    · rw [hj, Function.update_self]
      exact List.not_mem_nil
    · rw [Function.update_of_ne hj]
      exact fun ha' ↦ hj (h.disjoint j k a ha' ha)
  · rw [Function.update_of_ne hk.symm]

end Separate

namespace Store

variable [DecidableEq κ] [DecidableEq ν]

/-- Every list holds its nodes, and no node is in two lists. -/
structure Holds (s : Store κ ν) (f : κ → List ν) (m : κ → Level) : Prop where
  separate : Separate f
  at_list : ∀ k, s.At k (f k) (m k)

section Holds

variable {s s' : Store κ ν} {f : κ → List ν} {m : κ → Level} {k k' : κ} {c : ν}
  {l l₁ l₂ : List ν}

omit [DecidableEq κ] [DecidableEq ν] in
/-- A list depends on its ends and on the links of its nodes. -/
theorem At.congr {v : Level} (h : s.At k l v) (he : s'.ends k' = s.ends k)
    (hl : ∀ a ∈ l, s'.links a = s.links a) : s'.At k' l v := by
  have hnext (hn : Seg (fun a ↦ (s.links a).next) l (s.ends k).first none) :
      Seg (fun a ↦ (s'.links a).next) l (s'.ends k').first none := by
    rw [he]
    exact hn.congr fun a ha ↦ by rw [hl a ha]
  cases v with
  | stale => trivial
  | walk => exact hnext h
  | forward => exact ⟨hnext h.next, by rw [he, h.last]⟩
  | both =>
    refine ⟨hnext h.next, ?_⟩
    rw [he]
    exact h.prev.congr fun a ha ↦ by rw [hl a (List.mem_reverse.mp ha)]

omit [DecidableEq κ] [DecidableEq ν] in
/-- A list without ends is empty. -/
theorem At.nil {v : Level} (h : s.ends k = ⟨none, none⟩) : s.At k [] v := by
  cases v with
  | stale => trivial
  | walk => simp [At, h]
  | forward | both => constructor <;> simp [h]

omit [DecidableEq κ] [DecidableEq ν] in
/-- The forward links of a list. -/
theorem At.forward {v : Level} (h : s.At k l v) (hv : v = .forward ∨ v = .both) :
    s.Forward k l := by
  obtain rfl | rfl := hv
  · exact h
  · exact WellFormed.forward h

omit [DecidableEq κ] [DecidableEq ν] in
/-- Knowledge about some lists may be given up. -/
theorem Holds.weaken {m' : κ → Level} (h : s.Holds f m) (hm : ∀ k, m' k = m k ∨ m' k = .stale) :
    s.Holds f m' := by
  refine ⟨h.separate, fun k ↦ ?_⟩
  obtain hk | hk := hm k
  · rw [hk]
    exact h.at_list k
  · rw [hk]
    trivial

omit [DecidableEq κ] [DecidableEq ν] in
/-- Empty lists. -/
theorem Holds.empty (he : ∀ k, s.ends k = ⟨none, none⟩) (hf : ∀ k, f k = []) : s.Holds f m := by
  refine ⟨⟨fun k ↦ ?_, fun k _ a ha ↦ ?_⟩, fun k ↦ ?_⟩
  · rw [hf]
    exact List.nodup_nil
  · rw [hf] at ha
    cases ha
  · rw [hf]
    exact .nil (he k)

omit [DecidableEq ν] in
/-- Writing one list, its nodes and nodes that are in no list keeps the other lists. -/
theorem Holds.update {X : List ν} {v : Level} (h : s.Holds f m) (ho : Only s s' k X)
    (hX : ∀ a ∈ X, a ∈ f k ∨ ∀ j, a ∉ f j) (hs : Separate (Function.update f k l))
    (hk : s'.At k l v) : s'.Holds (Function.update f k l) (Function.update m k v) := by
  refine ⟨hs, fun j ↦ ?_⟩
  by_cases hj : j = k
  · subst hj
    rwa [Function.update_self, Function.update_self]
  · rw [Function.update_of_ne hj, Function.update_of_ne hj]
    apply (h.at_list j).congr (ho.ends j hj)
    intro a ha
    apply ho.links
    intro haX
    obtain hak | hn := hX a haX
    · exact hj (h.separate.disjoint j k a ha hak)
    · exact hn j ha

/-- A node in no list is linked in. -/
theorem Holds.link (h : s.Holds f m) (hm : m k = .both) (hk : f k = l₁ ++ l₂)
    (hc : ∀ j, c ∉ f j) : (s.link k l₁.getLast? l₂.head? c).Holds
      (Function.update f k (l₁ ++ c :: l₂)) m := by
  have hat := h.at_list k
  have hn := h.separate.nodup k
  have hck := hc k
  have hs : Separate (Function.update f k (l₁ ++ c :: l₂)) :=
    h.separate.cons hc (hk ▸ List.perm_middle)
  rw [hm, hk] at hat
  rw [hk] at hn hck
  rw [← Function.update_eq_self k m]
  apply h.update only_link _ hs
  · rw [hm]
    exact WellFormed.link hat hn hck
  · intro a ha
    obtain rfl | ha := List.mem_cons.mp ha
    · exact .inr hc
    · exact .inl (hk ▸ ha)

/-- A node is left out. -/
theorem Holds.unlink (h : s.Holds f m) (hm : m k = .both) (hk : f k = l₁ ++ c :: l₂) :
    (s.unlink k l₁.getLast? l₂.head?).Holds (Function.update f k (l₁ ++ l₂)) m := by
  have hat := h.at_list k
  have hn := h.separate.nodup k
  rw [hm, hk] at hat
  rw [hk] at hn
  have hsub : (l₁ ++ l₂).Sublist (f k) := by
    rw [hk]
    exact (List.sublist_cons_self c l₂).append_left l₁
  rw [← Function.update_eq_self k m]
  apply h.update only_unlink _ (h.separate.sublist hsub)
  · rw [hm]
    exact WellFormed.unlink hat hn
  · exact fun a ha ↦ .inl (hsub.subset ha)

/-- Insertion at the beginning. -/
theorem Holds.insertBeginning (h : s.Holds f m) (hm : m k = .both) (hc : ∀ j, c ∉ f j) :
    (s.insertBeginning k c).Holds (Function.update f k (c :: f k)) m := by
  have hat := h.at_list k
  rw [hm] at hat
  rw [WellFormed.insertBeginning_eq hat (hc k)]
  exact h.link hm (List.nil_append (f k)).symm hc

/-- Insertion at the end. -/
theorem Holds.insertEnd (h : s.Holds f m) (hm : m k = .forward ∨ m k = .both)
    (hc : ∀ j, c ∉ f j) : (s.insertEnd k c).Holds (Function.update f k (f k ++ [c])) m := by
  have hf := (h.at_list k).forward hm
  obtain hm | hm := hm
  · have hs : Separate (Function.update f k (f k ++ [c])) :=
      h.separate.cons hc (List.perm_append_singleton c (f k))
    have ho : Only s (s.insertEnd k c) k (c :: f k) := by
      have hl : Only s (s.link k (f k).getLast? [].head? c) k (c :: (f k ++ [])) := only_link
      rwa [← hf.insertEnd_eq (hc k), List.append_nil] at hl
    rw [← Function.update_eq_self k m]
    apply h.update ho _ hs
    · rw [hm]
      exact hf.insertEnd (h.separate.nodup k) (hc k)
    · intro a ha
      obtain rfl | ha := List.mem_cons.mp ha
      · exact .inr hc
      · exact .inl ha
  · rw [hf.insertEnd_eq (hc k)]
    exact h.link hm (List.append_nil (f k)).symm hc

/-- Removal of the first node. -/
theorem Holds.remove (h : s.Holds f m) (hm : m k = .both) (hk : f k = c :: l) :
    (s.remove k c).Holds (Function.update f k l) m := by
  have hat := h.at_list k
  have hn := h.separate.nodup k
  rw [← List.nil_append (c :: l)] at hk
  rw [hm, hk] at hat
  rw [hk] at hn
  rw [WellFormed.remove_eq hat hn]
  exact h.unlink hm hk

omit [DecidableEq κ] in
/-- The links of a node in no list may be written. -/
theorem Holds.setLinks (h : s.Holds f m) (hc : ∀ j, c ∉ f j) (n : Node ν) :
    Store.Holds { s with links := Function.update s.links c n } f m := by
  refine ⟨h.separate, fun j ↦ (h.at_list j).congr rfl fun a ha ↦ ?_⟩
  exact Function.update_of_ne (ne_of_mem_of_not_mem ha (hc j)) _ _

omit [DecidableEq ν] in
/-- A list loses its nodes. -/
theorem Holds.clear (h : s.Holds f m) (k : κ) (v : Level) :
    Store.Holds { s with ends := Function.update s.ends k ⟨none, none⟩ } (Function.update f k [])
      (Function.update m k v) := by
  have ho : Only s { s with ends := Function.update s.ends k ⟨none, none⟩ } k [] :=
    ⟨fun _ _ ↦ rfl, fun j hj ↦ Function.update_of_ne hj _ _⟩
  exact h.update ho nofun (h.separate.sublist (List.nil_sublist _))
    (At.nil (Function.update_self ..))

/-- The nodes of list `k` move to the end of list `k'`, by their next links alone. -/
def appendForward (s : Store κ ν) (k k' : κ) : Store κ ν :=
  match (s.ends k').last with
  | none => { s with ends :=
      Function.update (Function.update s.ends k ⟨none, none⟩) k' (s.ends k) }
  | some z =>
    { links := Function.update s.links z { s.links z with next := (s.ends k).first }
      ends := Function.update (Function.update s.ends k ⟨none, none⟩) k'
        ⟨(s.ends k').first, (s.ends k).last⟩ }

omit [DecidableEq κ] in
private theorem Forward.append {l' : List ν} {z : ν} (h : s.Forward k (l ++ [z]))
    (h' : s.Forward k' l') (hl' : l' ≠ []) (hn : (l ++ [z]).Nodup) (hz : z ∉ l')
    (hlinks : s'.links = Function.update s.links z ⟨(s.links z).prev, (s.ends k').first⟩)
    (hends : s'.ends k = ⟨(s.ends k).first, (s.ends k').last⟩) :
    s'.Forward k (l ++ [z] ++ l') := by
  obtain ⟨-, hseg, -⟩ := h.of_snoc
  constructor
  · rw [hlinks, hends]
    refine seg_append.mpr ⟨(s.ends k').first, seg_snoc.mpr ⟨hseg.congr fun a ha ↦ ?_, ?_⟩,
      h'.next.congr fun a ha ↦ ?_⟩
    · have haz : a ≠ z := by
        rintro rfl
        exact (List.nodup_append.mp hn).2.2 a ha a List.mem_cons_self rfl
      rw [Function.update_of_ne haz]
    · rw [Function.update_self]
    · rw [Function.update_of_ne (ne_of_mem_of_not_mem ha hz)]
  · rw [List.getLast?_append_of_ne_nil _ hl', ← h'.last, hends]

/-- Lists that are linked forwards may be appended so, and a well-formed list may be moved to
an empty one. -/
theorem Holds.appendForward (h : s.Holds f m) (hk : k ≠ k')
    (hm : m k = .forward ∨ m k = .both) (hl : f k ≠ [])
    (hm' : m k' = .forward ∨ m k = .both ∧ m k' = .both ∧ f k' = []) :
    (s.appendForward k k').Holds (Function.update (Function.update f k []) k' (f k' ++ f k))
      m := by
  have hfrom := (h.at_list k).forward hm
  have hto := (h.at_list k').forward (hm'.imp_right fun h ↦ h.2.1)
  have hs := h.separate.move hk
  have hnodup := h.separate.nodup k'
  have h1 := h.clear k (m k)
  rw [Function.update_eq_self] at h1
  have hk' : Function.update f k [] k' = f k' := Function.update_of_ne hk.symm _ _
  rw [← Function.update_eq_self k' m]
  obtain hn | ⟨l, z, hz⟩ := List.eq_nil_or_concat' (f k')
  · rw [hn] at hto
    have hlast : (s.ends k').last = none := hto.last
    simp only [Store.appendForward, hlast]
    refine h1.update (X := []) ⟨fun _ _ ↦ rfl, fun j hj ↦ ?_⟩ nofun hs ?_
    · exact Function.update_of_ne hj _ _
    · rw [hn, List.nil_append]
      obtain hm' | ⟨hm, hm', -⟩ := hm'
      · have hfrom' : s.At k (f k) .forward := hfrom
        rw [hm']
        exact hfrom'.congr (Function.update_self ..) fun _ _ ↦ rfl
      · have hfrom' := h.at_list k
        rw [hm] at hfrom'
        rw [hm']
        exact hfrom'.congr (Function.update_self ..) fun _ _ ↦ rfl
  · rw [hz] at hto hnodup
    have hlast := hto.of_snoc.1
    have hzk : z ∉ f k := fun hzk ↦ hk (h.separate.disjoint k k' z hzk
      (hz ▸ List.mem_concat_self))
    obtain hm' | ⟨-, -, hn⟩ := hm'
    · simp only [Store.appendForward, hlast]
      refine h1.update (X := [z]) ⟨fun a ha ↦ ?_, fun j hj ↦ ?_⟩ ?_ hs ?_
      · exact Function.update_of_ne (List.ne_of_not_mem_cons ha) _ _
      · exact Function.update_of_ne hj _ _
      · intro a ha
        rw [hk', hz, List.mem_singleton.mp ha]
        exact .inl List.mem_concat_self
      · rw [hm', hz]
        exact hto.append hfrom hl hnodup hzk rfl (Function.update_self ..)
    · rw [hn] at hz
      exact absurd hz (by simp)

omit [DecidableEq κ] [DecidableEq ν] in
/-- The first node of a list. -/
theorem At.first {v : Level} (h : s.At k l v) (hv : v ≠ .stale) :
    (s.ends k).first = l.head? := by
  cases v with
  | stale => exact absurd rfl hv
  | walk => exact Seg.eq_head? h
  | forward => exact (Forward.next h).eq_head?
  | both => exact (WellFormed.next h).eq_head?

omit [DecidableEq ν] in
/-- A walk takes over the nodes of list `k`. -/
theorem Holds.detach (h : s.Holds f m) (hk : k ≠ k') (hm : m k = .forward ∨ m k = .both)
    (hn : f k' = []) :
    (s.setFirst k' (s.ends k).first).Holds (Function.update (Function.update f k []) k' (f k))
      (Function.update (Function.update m k .stale) k' .walk) := by
  have hseg := ((h.at_list k).forward hm).next
  have hs := h.separate.move hk
  rw [hn, List.nil_append] at hs
  have hdrop : s.Holds (Function.update f k []) (Function.update m k .stale) :=
    h.update (X := []) ⟨fun _ _ ↦ rfl, fun _ _ ↦ rfl⟩ nofun
      (h.separate.sublist (List.nil_sublist _)) trivial
  refine hdrop.update (X := []) ⟨fun _ _ ↦ rfl, fun j hj ↦ ?_⟩ nofun hs ?_
  · exact Function.update_of_ne hj _ _
  · show Seg _ (f k) _ none
    rw [setFirst_ends, Function.update_self]
    exact hseg

omit [DecidableEq ν] in
/-- A walk goes to the next node. -/
theorem Holds.advance (h : s.Holds f m) (hm : m k = .walk) (hl : f k = c :: l) :
    (s.setFirst k (s.links c).next).Holds (Function.update f k l) m := by
  have hk := h.at_list k
  rw [hm, hl] at hk
  have hs : Separate (Function.update f k l) :=
    h.separate.sublist (hl ▸ List.sublist_cons_self c l)
  rw [← Function.update_eq_self k m]
  refine h.update (X := []) ⟨fun _ _ ↦ rfl, fun j hj ↦ ?_⟩ nofun hs ?_
  · exact Function.update_of_ne hj _ _
  · rw [hm]
    show Seg _ l _ none
    rw [setFirst_ends, Function.update_self]
    exact hk.2

end Holds

end Store
end DList
