/-
  Finite maps kept as an insertion-ordered list of entries with distinct keys. The keys are
  walked by index, so the order is part of the value: `put` on a key that is there overwrites
  the value in place, a new key goes to the end. `find?_put` and `find?_remove` are the map
  laws; `mem_entries_iff` ties the walk to the lookup.
-/
import Mathlib.Data.List.Nodup

namespace BuxnLs.Lib

/-- An insertion-ordered finite map. -/
structure Table (κ ν : Type) where
  entries : List (κ × ν)
  nodup : (entries.map Prod.fst).Nodup

namespace Table

variable {κ ν : Type}

@[ext] theorem ext {t t' : Table κ ν} (h : t.entries = t'.entries) : t = t' := by
  cases t
  cases t'
  cases h
  rfl

instance [DecidableEq κ] [DecidableEq ν] : DecidableEq (Table κ ν) := fun t t' =>
  decidable_of_iff (t.entries = t'.entries) ⟨ext, fun h => h ▸ rfl⟩

def empty : Table κ ν := ⟨[], List.nodup_nil⟩

instance : Inhabited (Table κ ν) := ⟨empty⟩

def keys (t : Table κ ν) : List κ := t.entries.map Prod.fst

@[simp] theorem keys_empty : (empty : Table κ ν).keys = [] := rfl

variable [DecidableEq κ]

def lookupEntries (k : κ) : List (κ × ν) → Option ν
  | [] => none
  | e :: es => if e.1 = k then some e.2 else lookupEntries k es

def putEntries (k : κ) (v : ν) : List (κ × ν) → List (κ × ν)
  | [] => [(k, v)]
  | e :: es => if e.1 = k then (k, v) :: es else e :: putEntries k v es

theorem keys_putEntries (k : κ) (v : ν) (es : List (κ × ν)) :
    (putEntries k v es).map Prod.fst =
      es.map Prod.fst ++ (if k ∈ es.map Prod.fst then [] else [k]) := by
  induction es with
  | nil => simp [putEntries]
  | cons e es ih =>
      by_cases he : e.1 = k
      · simp [putEntries, he]
      · have hm : k ∈ (e :: es).map Prod.fst ↔ k ∈ es.map Prod.fst := by
          simp [Ne.symm he]
        simp only [putEntries, if_neg he, List.map_cons, ih, List.cons_append, ← hm]

def find? (t : Table κ ν) (k : κ) : Option ν := lookupEntries k t.entries

/-- Set the value of `k`, in place when `k` is there and at the end otherwise. -/
def put (t : Table κ ν) (k : κ) (v : ν) : Table κ ν where
  entries := putEntries k v t.entries
  nodup := by
    rw [keys_putEntries]
    split
    · simpa using t.nodup
    · rename_i hk
      refine List.Nodup.append t.nodup (List.nodup_singleton k) ?_
      simpa using hk

/-- The other entries keep their order. A program whose map leaves it open may rely on `find?`
    alone. -/
def remove (t : Table κ ν) (k : κ) : Table κ ν where
  entries := t.entries.filter fun e => e.1 ≠ k
  nodup := t.nodup.sublist (List.filter_sublist.map Prod.fst)

/-! ## The map laws -/

@[simp] theorem find?_empty (k : κ) : (empty : Table κ ν).find? k = none := rfl

theorem find?_put (t : Table κ ν) (k k' : κ) (v : ν) :
    (t.put k v).find? k' = if k = k' then some v else t.find? k' := by
  unfold find? put
  dsimp only
  generalize t.entries = es
  induction es with
  | nil => simp [putEntries, lookupEntries]
  | cons e es ih =>
      by_cases he : e.1 = k
      · by_cases h : k = k'
        · simp [putEntries, lookupEntries, he, h]
        · simp [putEntries, lookupEntries, he, h]
      · simp only [putEntries, if_neg he, lookupEntries, ih]
        by_cases h : k = k'
        · subst h
          simp [he]
        · simp [h]

@[simp] theorem find?_put_self (t : Table κ ν) (k : κ) (v : ν) : (t.put k v).find? k = some v := by
  rw [find?_put, if_pos rfl]

theorem find?_put_ne (t : Table κ ν) {k k' : κ} (v : ν) (h : k ≠ k') :
    (t.put k v).find? k' = t.find? k' := by
  rw [find?_put, if_neg h]

theorem find?_put_eq_some {t : Table κ ν} {k k' : κ} {v w : ν} :
    (t.put k v).find? k' = some w ↔ k = k' ∧ v = w ∨ k ≠ k' ∧ t.find? k' = some w := by
  rw [find?_put]
  by_cases h : k = k'
  · rw [if_pos h, Option.some_inj]
    exact ⟨fun hv => Or.inl ⟨h, hv⟩, fun hv => hv.elim And.right fun hne => absurd h hne.1⟩
  · rw [if_neg h]
    exact ⟨fun hv => Or.inr ⟨h, hv⟩, fun hv => hv.elim (fun he => absurd he.1 h) And.right⟩

theorem find?_remove (t : Table κ ν) (k k' : κ) :
    (t.remove k).find? k' = if k = k' then none else t.find? k' := by
  unfold find? remove
  dsimp only
  generalize t.entries = es
  induction es with
  | nil => simp [lookupEntries]
  | cons e es ih =>
      by_cases he : e.1 = k
      · rw [List.filter_cons_of_neg (by simpa using he), ih]
        by_cases h : k = k' <;> simp [lookupEntries, he, h]
      · rw [List.filter_cons_of_pos (by simpa using he)]
        simp only [lookupEntries, ih]
        by_cases h : k = k'
        · subst h
          simp [he]
        · simp [h]

theorem find?_remove_eq_some {t : Table κ ν} {k k' : κ} {w : ν} :
    (t.remove k).find? k' = some w ↔ k ≠ k' ∧ t.find? k' = some w := by
  rw [find?_remove]
  by_cases h : k = k'
  · rw [if_pos h]
    exact ⟨fun hw => absurd hw (by simp), fun hw => absurd h hw.1⟩
  · rw [if_neg h]
    exact ⟨fun hw => ⟨h, hw⟩, And.right⟩

/-! ## Lookup and walk -/

theorem mem_entries_iff (t : Table κ ν) (k : κ) (v : ν) :
    (k, v) ∈ t.entries ↔ t.find? k = some v := by
  obtain ⟨es, hes⟩ := t
  unfold find?
  dsimp only
  induction es with
  | nil => simp [lookupEntries]
  | cons e es ih =>
      rw [List.map_cons, List.nodup_cons] at hes
      by_cases he : e.1 = k
      · have hnot : (k, v) ∉ es := fun hm =>
          hes.1 (he ▸ List.mem_map_of_mem (f := Prod.fst) hm)
        simp [lookupEntries, he, hnot, Prod.ext_iff, eq_comm]
      · have hne : (k, v) ≠ e := fun h => he (by rw [← h])
        simp [lookupEntries, he, hne, ih hes.2]

/-- A lookup does not depend on the order of the entries. -/
theorem find?_perm {t t' : Table κ ν} (h : t.entries.Perm t'.entries) (k : κ) :
    t.find? k = t'.find? k := by
  apply Option.ext
  intro v
  rw [← mem_entries_iff, ← mem_entries_iff, h.mem_iff]

theorem mem_keys_iff (t : Table κ ν) (k : κ) : k ∈ t.keys ↔ (t.find? k).isSome := by
  rw [Option.isSome_iff_exists]
  constructor
  · intro h
    obtain ⟨⟨k', v⟩, he, rfl⟩ := List.mem_map.mp h
    exact ⟨v, (t.mem_entries_iff k' v).mp he⟩
  · rintro ⟨v, hv⟩
    exact List.mem_map.mpr ⟨(k, v), (t.mem_entries_iff k v).mpr hv, rfl⟩

theorem find?_eq_none_iff (t : Table κ ν) (k : κ) : t.find? k = none ↔ k ∉ t.keys := by
  rw [mem_keys_iff, Option.not_isSome_iff_eq_none]

theorem keys_put (t : Table κ ν) (k : κ) (v : ν) :
    (t.put k v).keys = t.keys ++ (if k ∈ t.keys then [] else [k]) :=
  keys_putEntries k v t.entries

theorem mem_keys_put (t : Table κ ν) (k k' : κ) (v : ν) :
    k' ∈ (t.put k v).keys ↔ k' ∈ t.keys ∨ k' = k := by
  rw [keys_put]
  split
  · rename_i h
    simp only [List.append_nil]
    exact ⟨Or.inl, fun hc => hc.elim id fun he => he ▸ h⟩
  · simp

theorem mem_keys_remove (t : Table κ ν) (k k' : κ) :
    k' ∈ (t.remove k).keys ↔ k' ∈ t.keys ∧ k' ≠ k := by
  rw [mem_keys_iff, mem_keys_iff, find?_remove]
  by_cases h : k = k'
  · simp [h]
  · simp [h, Ne.symm h]

/-- A table is determined by its keys in order and by its lookups. -/
theorem ext_find? {t t' : Table κ ν} (hkeys : t'.keys = t.keys)
    (hfind : ∀ k, t'.find? k = t.find? k) : t' = t := by
  have hentries : ∀ t : Table κ ν, t.entries.map some =
      t.keys.map fun k => (t.find? k).map fun v => (k, v) := by
    intro t
    rw [keys, List.map_map]
    refine List.map_congr_left fun e he => ?_
    rw [Function.comp_apply, (t.mem_entries_iff e.1 e.2).mp he, Option.map_some]
  have hsome : t'.entries.map some = t.entries.map some := by
    rw [hentries, hentries, hkeys]
    exact List.map_congr_left fun k _ => by rw [hfind]
  exact ext (List.map_inj_right (fun _ _ => Option.some.inj) |>.mp hsome)

/-- Writing back what is there changes nothing. -/
theorem put_self {t : Table κ ν} {k : κ} {v : ν} (h : t.find? k = some v) : t.put k v = t := by
  refine ext_find? ?_ fun k' => ?_
  · rw [keys_put, if_pos ((t.mem_keys_iff k).mpr (by rw [h]; rfl)), List.append_nil]
  · rw [find?_put]
    split
    · next he => rw [← he, h]
    · rfl

/-! ## Maps over the values -/

section MapValues

variable {μ : Type}

def mapValues (f : ν → μ) (t : Table κ ν) : Table κ μ where
  entries := t.entries.map fun e => (e.1, f e.2)
  nodup := by
    rw [List.map_map]
    exact t.nodup

omit [DecidableEq κ] in
@[simp] theorem mapValues_empty (f : ν → μ) : (empty : Table κ ν).mapValues f = empty := rfl

omit [DecidableEq κ] in
@[simp] theorem keys_mapValues (f : ν → μ) (t : Table κ ν) : (t.mapValues f).keys = t.keys := by
  unfold keys mapValues
  rw [List.map_map]
  rfl

@[simp] theorem find?_mapValues (f : ν → μ) (t : Table κ ν) (k : κ) :
    (t.mapValues f).find? k = (t.find? k).map f := by
  unfold find? mapValues
  dsimp only
  induction t.entries with
  | nil => rfl
  | cons e es ih =>
      simp only [List.map_cons, lookupEntries, ih]
      split <;> rfl

theorem mapValues_put (f : ν → μ) (t : Table κ ν) (k : κ) (v : ν) :
    (t.put k v).mapValues f = (t.mapValues f).put k (f v) := by
  refine ext_find? ?_ fun k' => ?_
  · rw [keys_mapValues, keys_put, keys_put, keys_mapValues]
  · rw [find?_mapValues, find?_put, find?_put, find?_mapValues]
    split <;> rfl

theorem mapValues_remove (f : ν → μ) (t : Table κ ν) (k : κ) :
    (t.remove k).mapValues f = (t.mapValues f).remove k := by
  refine ext ?_
  show (t.entries.filter fun e => e.1 ≠ k).map (fun e => (e.1, f e.2)) =
    (t.entries.map fun e => (e.1, f e.2)).filter fun e => e.1 ≠ k
  rw [List.filter_map]
  rfl

end MapValues

end Table

end BuxnLs.Lib
