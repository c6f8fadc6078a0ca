/-
  Linked lists threaded through cells: `next` leads from a cell to the one behind it, `none` is
  the end. `Thread next p l` says that the cells from `p` on are those of `l`, so a walk from
  there ends (`follow_of_thread`). A cell put in front leaves the list behind it as it was
  (`Thread.push`), and a change of cells that are not in a list leaves that list
  (`Thread.congr`).
-/
import Mathlib.Data.List.Basic

namespace BuxnLs.Lib

variable {α : Type}

/-- The cells from `p` on; `none` when there are more than `fuel`. -/
def follow (next : α → Option α) : Nat → Option α → Option (List α)
  | _, none => some []
  | 0, some _ => none
  | fuel + 1, some a => (follow next fuel (next a)).map (a :: ·)

def Thread (next : α → Option α) : Option α → List α → Prop
  | p, [] => p = none
  | p, a :: l => p = some a ∧ Thread next (next a) l

variable {next next' : α → Option α} {p : Option α} {l : List α}

theorem follow_of_thread (h : Thread next p l) {fuel : Nat} (hfuel : l.length ≤ fuel) :
    follow next fuel p = some l := by
  induction l generalizing p fuel with
  | nil =>
      rw [show p = none from h, follow]
  | cons a l ih =>
      obtain ⟨rfl, hrest⟩ := h
      cases fuel with
      | zero => exact absurd hfuel (Nat.not_succ_le_zero _)
      | succ fuel =>
          rw [follow, ih hrest (Nat.le_of_succ_le_succ hfuel)]
          rfl

theorem Thread.congr (h : Thread next p l) (hnext : ∀ a ∈ l, next' a = next a) :
    Thread next' p l := by
  induction l generalizing p with
  | nil => exact h
  | cons a l ih =>
      refine ⟨h.1, ?_⟩
      rw [hnext a List.mem_cons_self]
      exact ih h.2 fun b hb => hnext b (List.mem_cons_of_mem a hb)

theorem Thread.push (h : Thread next p l) {a : α} (ha : next' a = p)
    (hnext : ∀ b ∈ l, next' b = next b) : Thread next' (some a) (a :: l) := by
  refine ⟨rfl, ?_⟩
  rw [ha]
  exact h.congr hnext

end BuxnLs.Lib
