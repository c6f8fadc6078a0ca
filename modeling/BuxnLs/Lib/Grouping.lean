/-
  A table filled under keys. `fileUnder` looks up the key of an element and puts back the value
  merged with it. The keys do not disturb each other: after a fold over a list, what stands under
  a key is what the elements with this key make of what stood there before (`find?_foldl_file`).
-/
import BuxnLs.Lib.Table

namespace BuxnLs.Lib.Table

variable {κ ν α : Type} [DecidableEq κ] (key : α → κ) (merge : Option ν → α → ν)

def fileUnder (t : Table κ ν) (a : α) : Table κ ν := t.put (key a) (merge (t.find? (key a)) a)

/-- What the elements of one key make of a value. -/
def mergeAll (v : Option ν) (group : List α) : Option ν :=
  group.foldl (fun v a => some (merge v a)) v

theorem mergeAll_concat (v : Option ν) (group : List α) (a : α) :
    mergeAll merge v (group ++ [a]) = some (merge (mergeAll merge v group) a) := by
  simp [mergeAll]

/-- Only the elements of a key change what stands under it. -/
theorem find?_foldl_file (l : List α) (t : Table κ ν) (k : κ) :
    (l.foldl (fileUnder key merge) t).find? k =
      mergeAll merge (t.find? k) (l.filter fun a => key a = k) := by
  induction l generalizing t with
  | nil => rfl
  | cons a l ih =>
      rw [List.foldl_cons, ih, fileUnder, find?_put]
      by_cases h : key a = k
      · have hfilter : (a :: l).filter (fun a => key a = k) =
            a :: l.filter fun a => key a = k := List.filter_cons_of_pos (by simpa using h)
        rw [if_pos h, hfilter, h]
        rfl
      · rw [if_neg h, List.filter_cons_of_neg (by simpa using h)]

end BuxnLs.Lib.Table
