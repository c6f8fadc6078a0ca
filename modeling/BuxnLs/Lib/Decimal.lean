/-
  Decimal numbers as ASCII bytes: `digits` writes one, `digitsValue` reads it.
-/
import Mathlib.Algebra.Group.Nat.Defs
import Mathlib.Data.List.Basic
import Mathlib.Data.List.Induction

namespace BuxnLs.Lib

def isDigit (ch : UInt8) : Bool := 0x30 ≤ ch && ch ≤ 0x39

theorem isDigit_iff {ch : UInt8} : isDigit ch = true ↔ 0x30 ≤ ch.toNat ∧ ch.toNat ≤ 0x39 := by
  simp [isDigit, UInt8.le_iff_toNat_le]

/-- The number that a string of digits denotes. -/
def digitsValue (s : List UInt8) : Nat := s.foldl (fun value ch => 10 * value + (ch.toNat - 0x30)) 0

/-- Digits denote 0 only if all of them are zeros. -/
theorem digitsValue_eq_zero_iff {s : List UInt8} (h : ∀ ch ∈ s, isDigit ch = true) :
    digitsValue s = 0 ↔ ∀ ch ∈ s, ch = 0x30 := by
  induction s using List.reverseRecOn with
  | nil => simp [digitsValue]
  | append_singleton s ch ih =>
      have hread : digitsValue (s ++ [ch]) = 10 * digitsValue s + (ch.toNat - 0x30) := by
        unfold digitsValue
        rw [List.foldl_append, List.foldl_cons, List.foldl_nil]
      have hch := isDigit_iff.mp (h ch (List.mem_append_right _ (List.mem_singleton_self ch)))
      have hlast : ch.toNat - 0x30 = 0 ↔ ch = 0x30 := by
        rw [← UInt8.toNat_inj]
        show _ ↔ ch.toNat = 0x30
        omega
      rw [hread, Nat.add_eq_zero_iff, hlast, List.forall_mem_append, List.forall_mem_singleton,
        ← ih fun c hc => h c (List.mem_append_left _ hc)]
      refine and_congr_left fun _ => ?_
      omega

/-- The decimal text of `n`. -/
def digits (n : Nat) : List UInt8 := (Nat.toDigits 10 n).map fun c => c.toNat.toUInt8

theorem toNat_of_isDigit {c : Char} (h : c.isDigit = true) :
    c.toNat.toUInt8.toNat = c.toNat ∧ 0x30 ≤ c.toNat ∧ c.toNat ≤ 0x39 := by
  have hrange : 0x30 ≤ c.toNat ∧ c.toNat ≤ 0x39 := by
    simpa [Char.isDigit, UInt32.le_iff_toNat_le] using h
  refine ⟨?_, hrange⟩
  rw [Nat.toUInt8_eq, UInt8.toNat_ofNat']
  omega

theorem isDigit_of_mem_digits {n : Nat} {ch : UInt8} (h : ch ∈ digits n) : isDigit ch = true := by
  obtain ⟨c, hc, rfl⟩ := List.mem_map.mp h
  obtain ⟨heq, hge, hle⟩ := toNat_of_isDigit
    (Nat.isDigit_of_mem_toDigits (by decide) (by decide) hc)
  rw [isDigit_iff, heq]
  exact ⟨hge, hle⟩

theorem digits_ne_nil (n : Nat) : digits n ≠ [] :=
  fun h => Nat.toDigits_ne_nil (List.map_eq_nil_iff.mp h)

/-- Reading gives back what was written. -/
theorem digitsValue_digits (n : Nat) : digitsValue (digits n) = n := by
  have hread : ∀ (cs : List Char) (value : Nat), (∀ c ∈ cs, c.isDigit = true) →
      (cs.map fun c => c.toNat.toUInt8).foldl (fun v ch => 10 * v + (ch.toNat - 0x30)) value =
        Nat.ofDigitChars 10 cs value := by
    intro cs
    induction cs with
    | nil => exact fun value _ => Nat.ofDigitChars_nil.symm
    | cons c cs ih =>
        intro value hcs
        have hc := (toNat_of_isDigit (hcs c List.mem_cons_self)).1
        rw [List.map_cons, List.foldl_cons, hc, Nat.ofDigitChars_cons]
        exact ih _ fun c' hc' => hcs c' (List.mem_cons_of_mem _ hc')
  have hdigits : ∀ c ∈ Nat.toDigits 10 n, c.isDigit = true := fun c hc =>
    Nat.isDigit_of_mem_toDigits (by decide) (by decide) hc
  exact (hread _ 0 hdigits).trans Nat.ofDigitChars_ten_toDigits

theorem length_digits_le_iff {n k : Nat} (hk : 0 < k) : (digits n).length ≤ k ↔ n < 10 ^ k := by
  unfold digits
  rw [List.length_map]
  exact Nat.length_toDigits_le_iff (by decide) hk

end BuxnLs.Lib
