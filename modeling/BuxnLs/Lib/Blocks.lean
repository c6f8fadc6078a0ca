/-
  `malloc` and `free`. `Holds b cells` says that the live blocks are those of `cells`, each once
  and with its content; the order of `cells` does not matter, so the blocks that an operation
  works on can be brought to the front (`Holds.perm`) and the others are its frame. Freeing what
  is not live has no result, so a computation that has one frees no block twice.
-/
import BuxnLs.Lib.Table
import Mathlib.Data.List.Perm.Basic

namespace BuxnLs.Lib

/-- The blocks that were given out and not freed, by address. -/
structure Blocks (κ : Type) where
  live : Table Nat κ
  next : Nat
  bound : ∀ p ∈ live.keys, p < next

namespace Table

variable {κ ν : Type} [DecidableEq κ]

/-- A key that is there comes first, up to the order. -/
theorem entries_perm_remove {t : Table κ ν} {k : κ} {v : ν} (h : t.find? k = some v) :
    t.entries.Perm ((k, v) :: (t.remove k).entries) := by
  have hmem : (k, v) ∈ t.entries := (t.mem_entries_iff k v).mpr h
  have hnodup : t.entries.Nodup := List.Nodup.of_map Prod.fst t.nodup
  refine (List.perm_ext_iff_of_nodup hnodup ?_).mpr fun e => ?_
  · refine List.nodup_cons.mpr ⟨fun hin => ?_, hnodup.filter _⟩
    simpa using (List.mem_filter.mp hin).2
  · obtain ⟨k', v'⟩ := e
    rw [List.mem_cons, mem_entries_iff, mem_entries_iff, find?_remove_eq_some]
    constructor
    · intro he
      by_cases hk : k = k'
      · subst hk
        exact Or.inl (by rw [Option.some.inj (h.symm.trans he)])
      · exact Or.inr ⟨hk, he⟩
    · rintro (he | he)
      · rw [(Prod.mk.inj he).1, (Prod.mk.inj he).2]
        exact h
      · exact he.2

theorem remove_put (t : Table κ ν) (k : κ) (v : ν) : (t.put k v).remove k = t.remove k := by
  refine ext ?_
  show (putEntries k v t.entries).filter (fun e => e.1 ≠ k) =
    t.entries.filter fun e => e.1 ≠ k
  induction t.entries with
  | nil => simp [putEntries]
  | cons e es ih =>
      by_cases he : e.1 = k
      · simp [putEntries, he]
      · simp only [putEntries, if_neg he, List.filter_cons, ih]

theorem put_perm (t : Table κ ν) (k : κ) (v : ν) :
    (t.put k v).entries.Perm ((k, v) :: (t.remove k).entries) := by
  have h := entries_perm_remove (find?_put_self t k v)
  rwa [remove_put] at h

theorem remove_of_notMem {t : Table κ ν} {k : κ} (h : t.find? k = none) : t.remove k = t := by
  refine ext (List.filter_eq_self.mpr fun e he => ?_)
  have hne : e.1 ≠ k := by
    rintro rfl
    rw [(t.mem_entries_iff e.1 e.2).mp he] at h
    cases h
  simpa using hne

end Table

namespace Blocks

variable {κ : Type}

def empty : Blocks κ := ⟨.empty, 0, fun _ h => absurd h List.not_mem_nil⟩

def malloc (b : Blocks κ) (x : κ) : Blocks κ × Nat :=
  (⟨b.live.put b.next x, b.next + 1, fun p hp => by
    rcases (Table.mem_keys_put ..).mp hp with hp | rfl
    · exact Nat.lt_succ_of_lt (b.bound p hp)
    · exact Nat.lt_succ_self _⟩, b.next)

/-- `free` of an address; there is no result when it is not live. -/
def free (b : Blocks κ) (p : Nat) : Option (Blocks κ) :=
  if p ∈ b.live.keys then
    some ⟨b.live.remove p, b.next, fun q hq => b.bound q ((Table.mem_keys_remove ..).mp hq).1⟩
  else none

/-- `free` of a pointer that may be null. -/
def freePtr (b : Blocks κ) : Option Nat → Option (Blocks κ)
  | none => some b
  | some p => b.free p

def read (b : Blocks κ) (p : Nat) : Option κ := b.live.find? p

/-- The live blocks are those of `cells`. -/
def Holds (b : Blocks κ) (cells : List (Nat × κ)) : Prop := b.live.entries.Perm cells

variable {b : Blocks κ} {cells cells' : List (Nat × κ)} {p : Nat} {x : κ}

theorem holds_empty : (empty : Blocks κ).Holds [] := List.Perm.nil

theorem Holds.live_empty (h : b.Holds []) : b.live = .empty :=
  Table.ext (List.Perm.eq_nil h)

theorem Holds.perm (h : b.Holds cells) (hperm : cells.Perm cells') : b.Holds cells' :=
  List.Perm.trans h hperm

theorem Holds.read (h : b.Holds ((p, x) :: cells)) : b.read p = some x :=
  (b.live.mem_entries_iff p x).mp (h.mem_iff.mpr List.mem_cons_self)

theorem Holds.read_of_mem (h : b.Holds cells) (hmem : (p, x) ∈ cells) : b.read p = some x :=
  (b.live.mem_entries_iff p x).mp (h.mem_iff.mpr hmem)

theorem Holds.malloc (h : b.Holds cells) (x : κ) :
    (b.malloc x).1.Holds (((b.malloc x).2, x) :: cells) := by
  have hnew : b.live.find? b.next = none := by
    rw [Table.find?_eq_none_iff]
    exact fun hmem => Nat.lt_irrefl _ (b.bound _ hmem)
  have hput := b.live.put_perm b.next x
  rw [Table.remove_of_notMem hnew] at hput
  exact hput.trans (h.cons _)

theorem Holds.free (h : b.Holds ((p, x) :: cells)) :
    ∃ b', b.free p = some b' ∧ b'.Holds cells := by
  have hread : b.live.find? p = some x := h.read
  have hlive : p ∈ b.live.keys := (b.live.mem_keys_iff p).mpr (by rw [hread]; rfl)
  unfold Blocks.free
  rw [if_pos hlive]
  exact ⟨_, rfl, ((Table.entries_perm_remove hread).symm.trans h).cons_inv⟩

/-- The blocks behind a pointer that may be null. -/
def cellsAt (x : κ) (ptr : Option Nat) : List (Nat × κ) := ptr.toList.map fun p => (p, x)

theorem Holds.freePtr {ptr : Option Nat} (h : b.Holds (cellsAt x ptr ++ cells)) :
    ∃ b', b.freePtr ptr = some b' ∧ b'.Holds cells := by
  cases ptr with
  | none => exact ⟨b, rfl, h⟩
  | some p => exact Holds.free h

/-- Freeing one element after another, each of which owns the blocks that `f` names. -/
theorem Holds.freeAll {α : Type} {f : α → List (Nat × κ)} {l : List α} {b : Blocks κ}
    (h : b.Holds (l.flatMap f ++ cells)) (free : Blocks κ → α → Option (Blocks κ))
    (hfree : ∀ b a cells, Holds b (f a ++ cells) → ∃ b', free b a = some b' ∧ b'.Holds cells) :
    ∃ b', l.foldlM free b = some b' ∧ b'.Holds cells := by
  induction l generalizing b with
  | nil => exact ⟨b, rfl, h⟩
  | cons a l ih =>
      rw [List.flatMap_cons, List.append_assoc] at h
      obtain ⟨b', hb', h'⟩ := hfree b a _ h
      obtain ⟨b'', hb'', h''⟩ := ih h'
      exact ⟨b'', by rw [List.foldlM_cons, hb']; exact hb'', h''⟩

end Blocks

end BuxnLs.Lib
