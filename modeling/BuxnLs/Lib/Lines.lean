/-
  Lines over an alphabet, each closed by the terminator `t :: ts`. A line without `t` is
  determined by the text that starts with it, and so is the block of lines up to the first one
  with a given property.
-/
import Mathlib.Data.List.Infix

namespace BuxnLs.Lib

variable {α : Type}

/-- The lines, each with its terminator. -/
def joinLines (term : List α) (ls : List (List α)) : List α := ls.flatMap (· ++ term)

@[simp] theorem joinLines_nil (term : List α) : joinLines term [] = [] := rfl

@[simp] theorem joinLines_cons (term l : List α) (ls : List (List α)) :
    joinLines term (l :: ls) = l ++ term ++ joinLines term ls := rfl

@[simp] theorem joinLines_append (term : List α) (ls ls' : List (List α)) :
    joinLines term (ls ++ ls') = joinLines term ls ++ joinLines term ls' :=
  List.flatMap_append

/-- A text is its closed lines and what is behind the last terminator. -/
theorem exists_joinLines [DecidableEq α] (t : α) (s : List α) :
    ∃ ls pending, s = joinLines [t] ls ++ pending ∧ (∀ l ∈ ls, t ∉ l) ∧ t ∉ pending := by
  induction s with
  | nil => exact ⟨[], [], rfl, fun l hl => absurd hl List.not_mem_nil, List.not_mem_nil⟩
  | cons c s ih =>
      obtain ⟨ls, pending, rfl, hls, hp⟩ := ih
      by_cases hc : c = t
      · refine ⟨[] :: ls, pending, by simp [hc], fun l hl => ?_, hp⟩
        rcases List.mem_cons.mp hl with rfl | hl
        · exact List.not_mem_nil
        · exact hls l hl
      · match ls, hls with
        | [], _ =>
            refine ⟨[], c :: pending, rfl, fun l hl => absurd hl List.not_mem_nil, ?_⟩
            exact fun h => (List.mem_cons.mp h).elim (fun e => hc e.symm) hp
        | l :: ls, hls =>
            refine ⟨(c :: l) :: ls, pending, rfl, fun l' hl' => ?_, hp⟩
            rcases List.mem_cons.mp hl' with rfl | hl'
            · exact fun h => (List.mem_cons.mp h).elim (fun e => hc e.symm)
                (hls l List.mem_cons_self)
            · exact hls l' (List.mem_cons_of_mem l hl')

/-- The first line of a text. -/
theorem line_unique {t : α} {ts l l' rest rest' : List α} (hl : t ∉ l) (hl' : t ∉ l')
    (h : l ++ t :: ts ++ rest = l' ++ t :: ts ++ rest') : l = l' ∧ rest = rest' := by
  induction l generalizing l' with
  | nil =>
      cases l' with
      | nil => exact ⟨rfl, List.append_cancel_left h⟩
      | cons x l' =>
          have hx : t = x := (List.cons.inj h).1
          exact absurd (hx ▸ List.mem_cons_self) hl'
  | cons x l ih =>
      cases l' with
      | nil =>
          have hx : x = t := (List.cons.inj h).1
          exact absurd (hx ▸ List.mem_cons_self) hl
      | cons y l' =>
          obtain ⟨hxy, htail⟩ := List.cons.inj h
          rw [List.mem_cons, not_or] at hl hl'
          obtain ⟨hll, hrest⟩ := ih hl.2 hl'.2 htail
          exact ⟨by rw [hxy, hll], hrest⟩

/-- Lines are what their text says. -/
theorem joinLines_inj {t : α} {ts : List α} {ls ls' : List (List α)} (hls : ∀ l ∈ ls, t ∉ l)
    (hls' : ∀ l ∈ ls', t ∉ l) (h : joinLines (t :: ts) ls = joinLines (t :: ts) ls') :
    ls = ls' := by
  induction ls generalizing ls' with
  | nil =>
      cases ls' with
      | nil => rfl
      | cons l' ls' =>
          have hlen := congrArg List.length h
          simp only [joinLines_nil, joinLines_cons, List.length_append, List.length_cons,
            List.length_nil] at hlen
          omega
  | cons l ls ih =>
      cases ls' with
      | nil =>
          have hlen := congrArg List.length h
          simp only [joinLines_nil, joinLines_cons, List.length_append, List.length_cons,
            List.length_nil] at hlen
          omega
      | cons l' ls' =>
          obtain ⟨rfl, hrest⟩ := line_unique (hls l List.mem_cons_self)
            (hls' l' List.mem_cons_self) h
          have htail := ih (fun x hx => hls x (List.mem_cons_of_mem _ hx))
            (fun x hx => hls' x (List.mem_cons_of_mem _ hx)) hrest
          rw [htail]

/-- `text` starts with the lines `ls`, the first line `z` with the property `p`, and `rest`. -/
structure BlockOf (t : α) (ts : List α) (p : List α → Prop) (text : List α) (ls : List (List α))
    (z rest : List α) : Prop where
  text_eq : text = joinLines (t :: ts) ls ++ (z ++ t :: ts ++ rest)
  lines : ∀ l ∈ ls, t ∉ l ∧ ¬ p l
  last : t ∉ z ∧ p z

theorem BlockOf.tail {t : α} {ts : List α} {p : List α → Prop} {text l : List α}
    {ls : List (List α)} {z rest : List α}
    (h : BlockOf t ts p (l ++ t :: ts ++ text) (l :: ls) z rest) :
    BlockOf t ts p text ls z rest where
  text_eq := by
    have heq := h.text_eq
    rw [joinLines_cons, List.append_assoc _ (joinLines _ ls) _] at heq
    exact List.append_cancel_left heq
  lines := fun l' hl' => h.lines l' (List.mem_cons_of_mem _ hl')
  last := h.last

/-- The block of a text is unique. -/
theorem BlockOf.unique {t : α} {ts : List α} {p : List α → Prop} {text : List α}
    {ls ls' : List (List α)} {z z' rest rest' : List α} (h : BlockOf t ts p text ls z rest)
    (h' : BlockOf t ts p text ls' z' rest') : ls = ls' ∧ z = z' ∧ rest = rest' := by
  have heq := h.text_eq.symm.trans h'.text_eq
  induction ls generalizing ls' text with
  | nil =>
      cases ls' with
      | nil =>
          obtain ⟨rfl, rfl⟩ := line_unique h.last.1 h'.last.1 heq
          exact ⟨rfl, rfl, rfl⟩
      | cons l ls' =>
          rw [joinLines_cons, List.append_assoc _ (joinLines _ ls') _] at heq
          obtain ⟨hno, hp⟩ := h'.lines l List.mem_cons_self
          obtain ⟨rfl, -⟩ := line_unique h.last.1 hno heq
          exact absurd h.last.2 hp
  | cons l ls ih =>
      obtain ⟨hno, hp⟩ := h.lines l List.mem_cons_self
      cases ls' with
      | nil =>
          rw [joinLines_cons, List.append_assoc _ (joinLines _ ls) _] at heq
          obtain ⟨rfl, -⟩ := line_unique hno h'.last.1 heq
          exact absurd h'.last.2 hp
      | cons l' ls' =>
          rw [joinLines_cons, joinLines_cons, List.append_assoc _ (joinLines _ ls) _,
            List.append_assoc _ (joinLines _ ls') _] at heq
          obtain ⟨hno', -⟩ := h'.lines l' List.mem_cons_self
          obtain ⟨rfl, hrest⟩ := line_unique hno hno' heq
          have htext := h.text_eq
          rw [joinLines_cons, List.append_assoc _ (joinLines _ ls) _] at htext
          subst htext
          obtain ⟨hls, hz⟩ := ih h.tail h'.tail hrest
          exact ⟨by rw [hls], hz⟩

end BuxnLs.Lib
