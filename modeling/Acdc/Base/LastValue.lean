import Mathlib.Data.List.Perm.Basic

/-!
# Last values

A list of writes leaves the last value that is written, or the value from before.
-/

namespace LastValue

variable {α β : Type*} {f : β → Option α} {x v : α} {l : List β}

/-- The last value that a list has, or a default. -/
def last (f : β → Option α) (x : α) (l : List β) : α := ((l.filterMap f).getLast?).getD x

@[simp] theorem last_nil (f : β → Option α) (x : α) : last f x [] = x := rfl

@[simp] theorem last_singleton (f : β → Option α) (x : α) (b : β) :
    last f x [b] = (f b).getD x := by
  cases h : f b with
  | none => rw [last, List.filterMap_cons_none h, List.filterMap_nil, List.getLast?_nil]
  | some v => rw [last, List.filterMap_cons_some h, List.filterMap_nil, List.getLast?_singleton]

theorem last_append (f : β → Option α) (x : α) (l l' : List β) :
    last f x (l ++ l') = last f (last f x l) l' := by
  rw [last, List.filterMap_append, List.getLast?_append, last, last]
  cases (l'.filterMap f).getLast? with
  | none => rfl
  | some v => rfl

theorem last_cons (f : β → Option α) (x : α) (b : β) (l : List β) :
    last f x (b :: l) = last f ((f b).getD x) l := by
  rw [← List.singleton_append, last_append, last_singleton]

/-- A value comes from the list or is the default. -/
theorem last_mem (f : β → Option α) (x : α) (l : List β) :
    last f x l = x ∨ ∃ b ∈ l, f b = some (last f x l) := by
  rw [last]
  cases h : (l.filterMap f).getLast? with
  | none => exact .inl rfl
  | some v => exact .inr (List.mem_filterMap.mp (List.mem_of_getLast? h))

/-- The order does not matter where only one element has a value. -/
theorem last_of_perm (h : (l.filterMap f).Perm [v]) (x : α) : last f x l = v := by
  rw [last, List.perm_singleton.mp h]
  rfl

theorem last_of_perm_nil (h : (l.filterMap f).Perm []) (x : α) : last f x l = x := by
  rw [last, h.eq_nil]
  rfl

end LastValue
