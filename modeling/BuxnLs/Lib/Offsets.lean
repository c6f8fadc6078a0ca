/-
  Two measures of one list of pieces. `scan f g l x` goes over the pieces until their `f`
  reaches `x` and returns the `g` of those it has passed. With the roles exchanged the two scans
  form a Galois connection at the cuts between pieces: `scan g f l` is the lower adjoint of
  `scan f g l` there.

  Proved:
  * `scan_monotone`: a scan is monotone in its limit.
  * `scan_eq_cut`: a scan stops at a cut.
  * `scan_cut`: at a cut the scan has passed the pieces before the cut.
  * `scan_le_cut_iff`: the adjunction.
  * `scan_scan_cut`: one scan undoes the other where every piece counts.
-/
import Mathlib

namespace BuxnLs.Lib

variable {α : Type} {f g : α → Nat}

/-- The total of the first `k` pieces. -/
def cut (f : α → Nat) (l : List α) (k : Nat) : Nat := ((l.take k).map f).sum

@[simp] theorem cut_zero (f : α → Nat) (l : List α) : cut f l 0 = 0 := rfl

@[simp] theorem cut_nil (f : α → Nat) (k : Nat) : cut f [] k = 0 := by
  simp [cut]

@[simp] theorem cut_succ (f : α → Nat) (a : α) (l : List α) (k : Nat) :
    cut f (a :: l) (k + 1) = f a + cut f l k := by
  simp [cut]

theorem cut_length (f : α → Nat) (l : List α) : cut f l l.length = (l.map f).sum := by
  simp [cut]

theorem cut_mono (f : α → Nat) (l : List α) {j k : Nat} (h : j ≤ k) : cut f l j ≤ cut f l k := by
  induction l generalizing j k with
  | nil => simp
  | cons a l ih =>
      cases j with
      | zero => exact Nat.zero_le _
      | succ j =>
          obtain ⟨k, rfl⟩ : ∃ n, k = n + 1 := ⟨k - 1, by omega⟩
          rw [cut_succ, cut_succ]
          exact Nat.add_le_add_left (ih (Nat.le_of_succ_le_succ h)) _

theorem cut_le_length (f : α → Nat) (l : List α) (k : Nat) : cut f l k ≤ cut f l l.length := by
  rcases Nat.le_total k l.length with hk | hk
  · exact cut_mono f l hk
  · rw [cut, List.take_of_length_le hk, cut_length]

theorem cut_lt {l : List α} (hpos : ∀ a ∈ l, 0 < f a) {j k : Nat} (h : j < k)
    (hk : k ≤ l.length) : cut f l j < cut f l k := by
  induction l generalizing j k with
  | nil => exact absurd (Nat.lt_of_lt_of_le h hk) (Nat.not_lt_zero j)
  | cons a l ih =>
      have ha := hpos a List.mem_cons_self
      obtain ⟨k, rfl⟩ : ∃ n, k = n + 1 := ⟨k - 1, by omega⟩
      rw [cut_succ]
      cases j with
      | zero =>
          rw [cut_zero]
          omega
      | succ j =>
          rw [cut_succ]
          exact Nat.add_lt_add_left (ih (fun b hb => hpos b (List.mem_cons_of_mem a hb))
            (Nat.lt_of_succ_lt_succ h) (Nat.le_of_succ_le_succ hk)) _

/-- Pass pieces until `f` has reached the limit, and add up their `g`. -/
def scan (f g : α → Nat) : List α → Int → Nat
  | [], _ => 0
  | a :: l, x => if x ≤ 0 then 0 else g a + scan f g l (x - f a)

@[simp] theorem scan_nil (x : Int) : scan f g [] x = 0 := rfl

theorem scan_of_le {x : Int} (l : List α) (hx : x ≤ 0) : scan f g l x = 0 := by
  cases l with
  | nil => rfl
  | cons a l => simp [scan, hx]

theorem scan_cons_of_pos {a : α} {l : List α} {x : Int} (hx : 0 < x) :
    scan f g (a :: l) x = g a + scan f g l (x - f a) := by
  simp [scan, Int.not_le.mpr hx]

theorem scan_monotone (f g : α → Nat) (l : List α) : Monotone (scan f g l) := by
  intro x y hxy
  induction l generalizing x y with
  | nil => exact Nat.le_refl 0
  | cons a l ih =>
      by_cases hx : x ≤ 0
      · rw [scan_of_le _ hx]
        exact Nat.zero_le _
      · rw [scan_cons_of_pos (by omega), scan_cons_of_pos (by omega)]
        have hrest := @ih (x - f a) (y - f a) (by omega)
        omega

/-- A scan stops between two pieces. -/
theorem scan_eq_cut (f g : α → Nat) (l : List α) (x : Int) :
    ∃ k ≤ l.length, scan f g l x = cut g l k := by
  induction l generalizing x with
  | nil => exact ⟨0, Nat.le_refl 0, rfl⟩
  | cons a l ih =>
      by_cases hx : x ≤ 0
      · exact ⟨0, Nat.zero_le _, scan_of_le _ hx⟩
      · obtain ⟨k, hk, hscan⟩ := ih (x - f a)
        refine ⟨k + 1, by simpa using hk, ?_⟩
        rw [scan_cons_of_pos (by omega), hscan, cut_succ]

/-- Up to a cut the scan passes the pieces before it. -/
theorem scan_cut {l : List α} (hpos : ∀ a ∈ l, 0 < f a) (k : Nat) :
    scan f g l (cut f l k) = cut g l k := by
  induction l generalizing k with
  | nil => simp
  | cons a l ih =>
      cases k with
      | zero => exact scan_of_le _ (by simp)
      | succ k =>
          have ha := hpos a List.mem_cons_self
          have hrest := ih (fun b hb => hpos b (List.mem_cons_of_mem a hb)) k
          rw [cut_succ, scan_cons_of_pos (by omega), cut_succ, ← hrest]
          congr 2
          omega

/-- The adjunction at a cut, for limits that the text reaches. -/
theorem scan_le_cut_iff {l : List α} (hpos : ∀ a ∈ l, 0 < f a) {x : Int}
    (hx : x ≤ (l.map g).sum) (k : Nat) :
    scan g f l x ≤ cut f l k ↔ x ≤ cut g l k := by
  induction l generalizing x k with
  | nil => simpa using hx
  | cons a l ih =>
      have ha := hpos a List.mem_cons_self
      by_cases h0 : x ≤ 0
      · rw [scan_of_le _ h0]
        exact ⟨fun _ => by omega, fun _ => Nat.zero_le _⟩
      · rw [scan_cons_of_pos (by omega)]
        cases k with
        | zero =>
            rw [cut_zero, cut_zero]
            constructor <;> intro h <;> omega
        | succ k =>
            have hrest := @ih (fun b hb => hpos b (List.mem_cons_of_mem a hb)) (x - g a)
              (by simp only [List.map_cons, List.sum_cons] at hx; omega) k
            rw [cut_succ, cut_succ]
            constructor
            · intro h
              have := hrest.mp (by omega)
              omega
            · intro h
              have := hrest.mpr (by omega)
              omega

theorem scan_le_sum (f g : α → Nat) (l : List α) (x : Int) : scan f g l x ≤ (l.map g).sum := by
  induction l generalizing x with
  | nil => exact Nat.le_refl 0
  | cons a l ih =>
      by_cases hx : x ≤ 0
      · rw [scan_of_le _ hx]
        exact Nat.zero_le _
      · rw [scan_cons_of_pos (by omega), List.map_cons, List.sum_cons]
        have hrest := ih (x - f a)
        omega

/-- Where every piece counts under both measures, one scan undoes the other. -/
theorem scan_scan_cut {l : List α} (hf : ∀ a ∈ l, 0 < f a) (hg : ∀ a ∈ l, 0 < g a) (k : Nat) :
    scan g f l (scan f g l (cut f l k)) = cut f l k := by
  rw [scan_cut hf, scan_cut hg]

end BuxnLs.Lib
