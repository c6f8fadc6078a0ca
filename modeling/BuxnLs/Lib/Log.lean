/-
  Append-only logs. An element is known by its number, its position in the log; `newest p` walks
  the elements with `p` from the newest to the oldest. It is what linked lists that grow at the
  front hold when every new element is linked into the lists it belongs to (`newest_concat`); the
  numbers in a group depend only on which elements are in it (`map_newest_congr`). `Matching`
  compares two logs that number the same elements differently.
-/
import Mathlib.Data.List.Basic
import Mathlib.Data.List.Induction

namespace BuxnLs.Lib

variable {α : Type}

/-- The elements of a log with `p`, each with its number, newest first. -/
def newest (p : α → Bool) (log : List α) : List (α × Nat) :=
  log.zipIdx.reverse.filter fun e => p e.1

@[simp] theorem newest_nil (p : α → Bool) : newest p ([] : List α) = [] := rfl

theorem newest_concat (p : α → Bool) (log : List α) (x : α) :
    newest p (log ++ [x]) =
      if p x then (x, log.length) :: newest p log else newest p log := by
  unfold newest
  rw [List.zipIdx_append, List.zipIdx_singleton, List.reverse_append, List.reverse_singleton,
    List.singleton_append, List.filter_cons, Nat.zero_add]

theorem mem_newest_iff {p : α → Bool} {log : List α} {x : α} {i : Nat} :
    (x, i) ∈ newest p log ↔ log[i]? = some x ∧ p x = true := by
  unfold newest
  rw [List.mem_filter, List.mem_reverse, List.mk_mem_zipIdx_iff_getElem?]

theorem newest_map {β : Type} (q : β → Bool) (f : α → β) (log : List α) :
    newest q (log.map f) = (newest (q ∘ f) log).map fun e => (f e.1, e.2) := by
  unfold newest
  rw [List.zipIdx_map, ← List.map_reverse, List.filter_map]
  rfl

/-- The numbers of a group depend only on which elements are in it. -/
theorem map_newest_congr {β : Type} {p : α → Bool} {q : β → Bool} {log : List α} {log' : List β}
    (h : log'.map q = log.map p) :
    (newest q log').map Prod.snd = (newest p log).map Prod.snd := by
  have hmarks : ∀ {γ : Type} (r : γ → Bool) (l : List γ),
      (newest id (l.map r)).map Prod.snd = (newest r l).map Prod.snd := by
    intro γ r l
    rw [newest_map, List.map_map]
    rfl
  rw [← hmarks q, ← hmarks p, h]

/-- A search by number finds what a search by content finds. -/
theorem find?_map_snd {q : Nat → Bool} {r : α → Bool} {es : List (α × Nat)}
    (hq : ∀ e ∈ es, q e.2 = r e.1) :
    (es.map Prod.snd).find? q = (es.find? fun e => r e.1).map Prod.snd := by
  induction es with
  | nil => rfl
  | cons e es ih =>
      rw [List.map_cons, List.find?_cons, List.find?_cons, hq e (by simp),
        ih fun e' he' => hq e' (by simp [he'])]
      split <;> rfl

/-- A walk by number visits what a walk by content visits. -/
theorem filterMap_map_snd {β : Type} {g : Nat → Option β} {h : α → Option β}
    {es : List (α × Nat)} (hg : ∀ e ∈ es, g e.2 = h e.1) :
    (es.map Prod.snd).filterMap g = es.filterMap fun e => h e.1 := by
  rw [List.filterMap_map]
  exact List.filterMap_congr fun e he => hg e he

/-! ## Two logs -/

/-- Numbers of two logs paired one to one, each pair with the same element. -/
structure Matching (M : Nat → Nat → Prop) (log log' : List α) : Prop where
  left : ∀ {i j j'}, M i j → M i j' → j = j'
  right : ∀ {i i' j}, M i j → M i' j → i = i'
  same : ∀ {i j}, M i j → ∃ x, log[i]? = some x ∧ log'[j]? = some x

/-- One more pair. -/
def withPair (M : Nat → Nat → Prop) (n n' : Nat) (i j : Nat) : Prop := M i j ∨ (i = n ∧ j = n')

namespace Matching

variable {M : Nat → Nat → Prop} {log log' : List α}

theorem none (log log' : List α) : Matching (fun _ _ => False) log log' :=
  ⟨fun h => h.elim, fun h => h.elim, fun h => h.elim⟩

theorem lt (h : Matching M log log') {i j : Nat} (hm : M i j) :
    i < log.length ∧ j < log'.length := by
  obtain ⟨x, hi, hj⟩ := h.same hm
  exact ⟨(List.getElem?_eq_some_iff.mp hi).1, (List.getElem?_eq_some_iff.mp hj).1⟩

theorem append (h : Matching M log log') (xs ys : List α) :
    Matching M (log ++ xs) (log' ++ ys) where
  left := h.left
  right := h.right
  same := by
    intro i j hm
    obtain ⟨hi, hj⟩ := h.lt hm
    rw [List.getElem?_append_left hi, List.getElem?_append_left hj]
    exact h.same hm

/-- The same element is added to both. -/
theorem concat (h : Matching M log log') (x : α) :
    Matching (withPair M log.length log'.length) (log ++ [x]) (log' ++ [x]) where
  left := by
    rintro i j j' (hm | ⟨rfl, rfl⟩) (hm' | ⟨hi, rfl⟩)
    · exact h.left hm hm'
    · exact absurd (h.lt hm).1 (by omega)
    · exact absurd (h.lt hm').1 (Nat.lt_irrefl _)
    · rfl
  right := by
    rintro i i' j (hm | ⟨rfl, rfl⟩) (hm' | ⟨rfl, hj⟩)
    · exact h.right hm hm'
    · exact absurd (h.lt hm).2 (by omega)
    · exact absurd (h.lt hm').2 (Nat.lt_irrefl _)
    · rfl
  same := by
    rintro i j (hm | ⟨rfl, rfl⟩)
    · exact (h.append [x] [x]).same hm
    · exact ⟨x, by simp, by simp⟩

/-- Matched elements are rewritten alike. -/
theorem modify (h : Matching M log log') {i j : Nat} (hm : M i j) (f : α → α) :
    Matching M (log.modify i f) (log'.modify j f) where
  left := h.left
  right := h.right
  same := by
    intro k l hk
    obtain ⟨x, hx, hx'⟩ := h.same hk
    rw [List.getElem?_modify, List.getElem?_modify, hx, hx']
    by_cases he : i = k
    · subst he
      obtain rfl := h.left hm hk
      exact ⟨f x, by simp, by simp⟩
    · have hne : j ≠ l := fun hj => he (h.right hm (hj ▸ hk))
      exact ⟨x, by simp [he], by simp [hne]⟩

end Matching

/-- A walk by numbers. -/
theorem newest_eq (p : α → Bool) (log : List α) :
    newest p log = (List.range log.length).reverse.filterMap fun i =>
      ((log[i]?).filter p).map fun x => (x, i) := by
  induction log using List.reverseRecOn with
  | nil => rfl
  | append_singleton log x ih =>
      have hold : (List.range log.length).reverse.filterMap (fun i =>
            (((log ++ [x])[i]?).filter p).map fun y => (y, i)) = newest p log := by
        rw [ih]
        refine List.filterMap_congr fun i hi => ?_
        have hlt : i < log.length := by simpa using hi
        rw [List.getElem?_append_left hlt]
      rw [newest_concat, List.length_append, List.length_singleton, List.range_succ,
        List.reverse_append, List.reverse_singleton, List.singleton_append,
        List.filterMap_cons, hold, List.getElem?_concat_length, Option.filter_some]
      split <;> rfl

/-- Rewriting an element in place does not change a group that it never belongs to. -/
theorem newest_modify_of_not {p : α → Bool} {f : α → α} {log : List α} {i : Nat}
    (h : ∀ x, log[i]? = some x → p x = false ∧ p (f x) = false) :
    newest p (log.modify i f) = newest p log := by
  rw [newest_eq, newest_eq, List.length_modify]
  refine List.filterMap_congr fun j _ => ?_
  rw [List.getElem?_modify]
  cases hj : log[j]? with
  | none => rfl
  | some x =>
      by_cases he : i = j
      · subst he
        obtain ⟨hx, hfx⟩ := h x hj
        simp [Option.filter_some, hx, hfx]
      · simp [he]

end BuxnLs.Lib
