/-
  Lists used as arenas: an object is addressed by its index, allocation appends, and an object
  is changed in place by `List.modify`. The lemmas say what an index denotes after each, in the
  form `[i]? = some x`.
-/
import Mathlib.Data.List.Basic

namespace BuxnLs.Lib

variable {α : Type}

theorem getElem?_alloc_iff (l : List α) (x y : α) (i : Nat) :
    (l ++ [x])[i]? = some y ↔ l[i]? = some y ∨ (i = l.length ∧ y = x) := by
  rcases Nat.lt_trichotomy i l.length with h | h | h
  · rw [List.getElem?_append_left h]
    exact ⟨Or.inl, fun hc => hc.elim id fun hc => absurd hc.1 (by omega)⟩
  · subst h
    simp [eq_comm]
  · rw [List.getElem?_eq_none (by simp; omega), List.getElem?_eq_none (by omega)]
    simp
    omega

theorem getElem?_alloc_old {l : List α} {x y : α} {i : Nat} (h : l[i]? = some y) :
    (l ++ [x])[i]? = some y :=
  (getElem?_alloc_iff l x y i).mpr (Or.inl h)

theorem lt_length_of_getElem? {l : List α} {x : α} {i : Nat} (h : l[i]? = some x) :
    i < l.length :=
  (List.getElem?_eq_some_iff.mp h).1

theorem getElem?_modify_iff (l : List α) (f : α → α) (i j : Nat) (y : α) :
    (l.modify i f)[j]? = some y ↔ ∃ x, l[j]? = some x ∧ y = if i = j then f x else x := by
  rw [List.getElem?_modify]
  constructor
  · intro h
    obtain ⟨x, hx, he⟩ := Option.map_eq_some_iff.mp h
    exact ⟨x, hx, he.symm⟩
  · rintro ⟨x, hx, rfl⟩
    simp [hx]

/-- Reading all indices in order gives the list back. -/
theorem filterMap_range_getElem? (l : List α) :
    ((List.range l.length).filterMap fun i => l[i]?) = l := by
  induction l with
  | nil => rfl
  | cons x l ih =>
      rw [List.length_cons, List.range_succ_eq_map, List.filterMap_cons, List.getElem?_cons_zero,
        List.filterMap_map]
      exact congrArg (x :: ·) ih

/-- A measure of the elements, summed up. -/
def totalOf (f : α → Nat) (l : List α) : Nat := l.foldr (fun x total => f x + total) 0

@[simp] theorem totalOf_cons (f : α → Nat) (x : α) (l : List α) :
    totalOf f (x :: l) = f x + totalOf f l := rfl

theorem totalOf_append (f : α → Nat) (l l' : List α) :
    totalOf f (l ++ l') = totalOf f l + totalOf f l' := by
  induction l with
  | nil => exact (Nat.zero_add _).symm
  | cons x l ih => rw [List.cons_append, totalOf_cons, totalOf_cons, ih, Nat.add_assoc]

/-- The total falls with the measure of one element. -/
theorem totalOf_set_lt (f : α → Nat) {l : List α} {i : Nat} {x y : α} (h : l[i]? = some x)
    (hlt : f y < f x) : totalOf f (l.set i y) < totalOf f l := by
  induction l generalizing i with
  | nil => simp at h
  | cons z l ih =>
      cases i with
      | zero =>
          obtain rfl : z = x := by simpa using h
          simpa using hlt
      | succ i =>
          have hrest := ih (by simpa using h)
          simpa using hrest

end BuxnLs.Lib
