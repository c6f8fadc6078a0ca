/-
  The lexicographic order on lists, a proper prefix first, and texts in it that are made of
  fields. A field of fixed width never leaks into the next one (`compare_append`), and numbers
  written with the same number of digits, padded with zeros, compare as numbers
  (`compare_numeral`).
-/
import Mathlib.Data.List.Basic
import Mathlib.Algebra.Order.Ring.Nat

namespace BuxnLs.Lib

variable {α : Type} [Ord α]

/-- Behind parts of the same length the comparison starts anew. -/
theorem compare_append {xs ys : List α} (h : xs.length = ys.length) (us vs : List α) :
    compare (xs ++ us) (ys ++ vs) = (compare xs ys).then (compare us vs) := by
  induction xs generalizing ys with
  | nil =>
      rw [List.length_nil] at h
      rw [List.eq_nil_of_length_eq_zero h.symm, List.compare_nil_nil]
      rfl
  | cons x xs ih =>
      cases ys with
      | nil => cases h
      | cons y ys =>
          have htail : xs.length = ys.length := by simpa using h
          rw [List.cons_append, List.cons_append, List.compare_cons_cons,
            List.compare_cons_cons, ih htail, Ordering.then_assoc]

theorem compare_singleton (x y : α) : compare [x] [y] = compare x y := by
  rw [List.compare_cons_cons, List.compare_nil_nil, Ordering.then_eq]

theorem compare_self_append [Std.ReflOrd α] (xs us vs : List α) :
    compare (xs ++ us) (xs ++ vs) = compare us vs := by
  rw [compare_append rfl, Std.ReflOrd.compare_self]
  rfl

/-! ## Numerals of fixed width -/

/-- A number is compared by its digits, the last one last. -/
theorem compare_div_mod (b m n : Nat) :
    compare m n = (compare (m / b) (n / b)).then (compare (m % b) (n % b)) := by
  have hm := Nat.div_add_mod m b
  have hn := Nat.div_add_mod n b
  rcases Nat.lt_trichotomy (m / b) (n / b) with h | h | h
  · have hlt : m < n := Nat.lt_of_div_lt_div h
    rw [Nat.compare_eq_lt.mpr hlt, Nat.compare_eq_lt.mpr h]
    rfl
  · rw [h, Nat.compare_eq_eq.mpr rfl, Ordering.eq_then]
    rw [h] at hm
    rcases Nat.lt_trichotomy (m % b) (n % b) with h' | h' | h'
    · rw [Nat.compare_eq_lt.mpr h', Nat.compare_eq_lt.mpr (by omega)]
    · rw [h', Nat.compare_eq_eq.mpr rfl, Nat.compare_eq_eq.mpr (by omega)]
    · rw [Nat.compare_eq_gt.mpr h', Nat.compare_eq_gt.mpr (by omega)]
  · have hgt : n < m := Nat.lt_of_div_lt_div h
    rw [Nat.compare_eq_gt.mpr hgt, Nat.compare_eq_gt.mpr h]
    rfl

/-- The last `width` digits of a number in base `b`, most significant first. -/
def numeral (b : Nat) (digit : Nat → α) : Nat → Nat → List α
  | 0, _ => []
  | width + 1, n => numeral b digit width (n / b) ++ [digit (n % b)]

omit [Ord α] in
theorem length_numeral (b : Nat) (digit : Nat → α) (width n : Nat) :
    (numeral b digit width n).length = width := by
  induction width generalizing n with
  | zero => rfl
  | succ width ih => rw [numeral, List.length_append, ih, List.length_singleton]

theorem compare_numeral {b : Nat} {digit : Nat → α} (hb : 0 < b)
    (hdigit : ∀ i j, i < b → j < b → compare (digit i) (digit j) = compare i j) {width m n : Nat}
    (hm : m < b ^ width) (hn : n < b ^ width) :
    compare (numeral b digit width m) (numeral b digit width n) = compare m n := by
  induction width generalizing m n with
  | zero =>
      have hm : m = 0 := by simpa using hm
      have hn : n = 0 := by simpa using hn
      rw [hm, hn]
      rfl
  | succ width ih =>
      have hlen := (length_numeral b digit width (m / b)).trans
        (length_numeral b digit width (n / b)).symm
      have hmdiv : m / b < b ^ width := Nat.div_lt_of_lt_mul (by rwa [pow_succ'] at hm)
      have hndiv : n / b < b ^ width := Nat.div_lt_of_lt_mul (by rwa [pow_succ'] at hn)
      rw [numeral, numeral, compare_append hlen, ih hmdiv hndiv, compare_singleton,
        hdigit _ _ (Nat.mod_lt _ hb) (Nat.mod_lt _ hb), ← compare_div_mod]

end BuxnLs.Lib
