/-
  The two offset loops of `lsp.c` as scans over the units of a line. Each loop is the scan of
  `Lib.Offsets` with one of the two measures of a unit as the limit and the other as the result,
  so what holds of every such pair of scans holds of them: both are monotone, they stop at unit
  boundaries, and the byte offset of a UTF-16 offset is adjoint to the UTF-16 offset of a byte
  offset.
-/
import BuxnLs.Lib.Offsets
import BuxnLs.Model.Utf8

namespace BuxnLs.Analysis

open BuxnLs.Lib BuxnLs.Model

/-- A line in memory: its bytes and what stands behind them. No object of C is longer than
    `PTRDIFF_MAX`. -/
structure StoredLine where
  bytes : Str
  behind : Str
  fits : bytes.length < 2 ^ 63

namespace StoredLine

def line (l : StoredLine) : Line := ⟨l.bytes ++ l.behind, l.bytes.length⟩

/-- The UTF-16 offset of a byte offset. -/
def utf16At (l : StoredLine) (u : Utf8proc) (byteOffset : Int) : Int :=
  utf16OffsetFromByteOffset u l.line byteOffset

/-- The byte offset of a UTF-16 offset. -/
def byteAt (l : StoredLine) (u : Utf8proc) (utf16Offset : Int) : Int :=
  byteOffsetFromUtf16Offset u l.line utf16Offset

/-- Where the first `k` units of the line end. -/
def boundary (l : StoredLine) (u : Utf8proc) (k : Nat) : Int :=
  (((units u l.bytes).take k).map TextUnit.bytes).sum

def IsBoundary (l : StoredLine) (u : Utf8proc) (b : Int) : Prop :=
  ∃ k ≤ (units u l.bytes).length, b = l.boundary u k

end StoredLine

/-! ## The units of a text -/

/-- The units cover the text. -/
theorem unitsFrom_sum (u : Utf8proc) (fuel : Nat) (rest : Str) (h : rest.length ≤ fuel) :
    ((unitsFrom u fuel rest).map TextUnit.bytes).sum = rest.length := by
  induction fuel generalizing rest with
  | zero => simp [unitsFrom, List.length_eq_zero_iff.mp (Nat.le_zero.mp h)]
  | succ fuel ih =>
      cases rest with
      | nil => rfl
      | cons ch rest =>
          have hb := takeUnit_bounds u (List.cons_ne_nil ch rest)
          rw [unitsFrom, List.map_cons, List.sum_cons, ih _ (by rw [List.length_drop]; omega),
            List.length_drop]
          omega

theorem units_sum (u : Utf8proc) (text : Str) :
    ((units u text).map TextUnit.bytes).sum = text.length :=
  unitsFrom_sum u _ text (Nat.le_refl _)

/-! ## The loops are scans -/

/-- One iteration that does not stop. -/
theorem utf16Loop_step (u : Utf8proc) {lineLen byteOffset itr : Int} (fuel : Nat) (rest : Str)
    (n : Int) (h : ¬ (itr ≥ byteOffset ∨ itr ≥ lineLen)) :
    utf16Loop u lineLen byteOffset (fuel + 1) rest itr n =
      utf16Loop u lineLen byteOffset fuel (rest.drop (takeUnit u rest).bytes)
        (itr + (takeUnit u rest).bytes) (n + (takeUnit u rest).utf16Length) := by
  rw [utf16Loop, if_neg h]
  cases hiter : u.iterate rest with
  | none => simp [takeUnit, hiter, TextUnit.bytes, TextUnit.utf16Length]
  | some r =>
      simp only [takeUnit, hiter, TextUnit.bytes, TextUnit.utf16Length, codeUnits]
      split <;> rfl

theorem byteLoop_step (u : Utf8proc) {lineLen utf16Offset n : Int} (fuel : Nat) (rest : Str)
    (itr : Int) (h : ¬ (n ≥ utf16Offset ∨ itr ≥ lineLen)) :
    byteLoop u lineLen utf16Offset (fuel + 1) rest itr n =
      byteLoop u lineLen utf16Offset fuel (rest.drop (takeUnit u rest).bytes)
        (itr + (takeUnit u rest).bytes) (n + (takeUnit u rest).utf16Length) := by
  rw [byteLoop, if_neg h]
  cases hiter : u.iterate rest with
  | none => simp [takeUnit, hiter, TextUnit.bytes, TextUnit.utf16Length]
  | some r =>
      simp only [takeUnit, hiter, TextUnit.bytes, TextUnit.utf16Length, codeUnits]
      split <;> rfl

theorem utf16Loop_eq (u : Utf8proc) {lineLen byteOffset itr : Int} (fuel : Nat) (rest : Str)
    (n : Int) (h : itr + rest.length = lineLen) :
    utf16Loop u lineLen byteOffset fuel rest itr n =
      n + scan TextUnit.bytes TextUnit.utf16Length (unitsFrom u fuel rest)
        (byteOffset - itr) := by
  induction fuel generalizing rest itr n with
  | zero => simp [utf16Loop, unitsFrom]
  | succ fuel ih =>
      cases rest with
      | nil =>
          rw [utf16Loop, if_pos (Or.inr (by simp at h; omega)), unitsFrom, scan_nil]
          simp
      | cons ch rest =>
          by_cases hstop : itr ≥ byteOffset
          · rw [utf16Loop, if_pos (Or.inl hstop), scan_of_le _ (by omega)]
            simp
          · have hb := takeUnit_bounds u (List.cons_ne_nil ch rest)
            have hmore : ¬ (itr ≥ byteOffset ∨ itr ≥ lineLen) := by
              rw [List.length_cons] at h
              omega
            rw [utf16Loop_step u fuel _ n hmore,
              ih _ _ (by rw [List.length_drop]; omega), unitsFrom, scan_cons_of_pos (by omega)]
            push_cast
            rw [Int.sub_sub, Int.add_assoc]

theorem byteLoop_eq (u : Utf8proc) {lineLen utf16Offset itr : Int} (fuel : Nat) (rest : Str)
    (n : Int) (h : itr + rest.length = lineLen) :
    byteLoop u lineLen utf16Offset fuel rest itr n =
      itr + scan TextUnit.utf16Length TextUnit.bytes (unitsFrom u fuel rest)
        (utf16Offset - n) := by
  induction fuel generalizing rest itr n with
  | zero => simp [byteLoop, unitsFrom]
  | succ fuel ih =>
      cases rest with
      | nil =>
          rw [byteLoop, if_pos (Or.inr (by simp at h; omega)), unitsFrom, scan_nil]
          simp
      | cons ch rest =>
          by_cases hstop : n ≥ utf16Offset
          · rw [byteLoop, if_pos (Or.inl hstop), scan_of_le _ (by omega)]
            simp
          · have hb := takeUnit_bounds u (List.cons_ne_nil ch rest)
            have hmore : ¬ (n ≥ utf16Offset ∨ itr ≥ lineLen) := by
              rw [List.length_cons] at h
              omega
            rw [byteLoop_step u fuel _ itr hmore,
              ih _ _ (by rw [List.length_drop]; omega), unitsFrom, scan_cons_of_pos (by omega)]
            push_cast
            rw [Int.sub_sub, Int.add_assoc]

theorem signedSize_of_lt {len : Nat} (h : len < 2 ^ 63) : signedSize len = len := if_pos h

theorem utf16OffsetFromByteOffset_eq (u : Utf8proc) {line : Line} (hfits : line.len < 2 ^ 63)
    (hlen : line.len ≤ line.chars.length) (byteOffset : Int) :
    utf16OffsetFromByteOffset u line byteOffset =
      scan TextUnit.bytes TextUnit.utf16Length (units u (line.chars.take line.len))
        byteOffset := by
  have htake : (line.chars.take line.len).length = line.len := by
    rw [List.length_take]
    omega
  simp only [utf16OffsetFromByteOffset, signedSize_of_lt hfits, Int.toNat_natCast]
  rw [utf16Loop_eq u _ _ _ (by rw [htake]; omega), units, htake, Int.zero_add, Int.sub_zero]

theorem byteOffsetFromUtf16Offset_eq (u : Utf8proc) {line : Line} (hfits : line.len < 2 ^ 63)
    (hlen : line.len ≤ line.chars.length) (utf16Offset : Int) :
    byteOffsetFromUtf16Offset u line utf16Offset =
      scan TextUnit.utf16Length TextUnit.bytes (units u (line.chars.take line.len))
        utf16Offset := by
  have htake : (line.chars.take line.len).length = line.len := by
    rw [List.length_take]
    omega
  simp only [byteOffsetFromUtf16Offset, signedSize_of_lt hfits, Int.toNat_natCast]
  rw [byteLoop_eq u _ _ _ (by rw [htake]; omega), units, htake, Int.zero_add, Int.sub_zero]

namespace StoredLine

variable (l : StoredLine) (u : Utf8proc)

theorem line_take : l.line.chars.take l.line.len = l.bytes := List.take_left' rfl

theorem utf16At_eq (b : Int) :
    l.utf16At u b = scan TextUnit.bytes TextUnit.utf16Length (units u l.bytes) b := by
  rw [utf16At, utf16OffsetFromByteOffset_eq u l.fits (by simp [line]), line_take]

theorem byteAt_eq (x : Int) :
    l.byteAt u x = scan TextUnit.utf16Length TextUnit.bytes (units u l.bytes) x := by
  rw [byteAt, byteOffsetFromUtf16Offset_eq u l.fits (by simp [line]), line_take]

theorem boundary_eq (k : Nat) :
    l.boundary u k = (cut TextUnit.bytes (units u l.bytes) k : Nat) := rfl

theorem utf16At_boundary (k : Nat) :
    l.utf16At u (l.boundary u k) = (cut TextUnit.utf16Length (units u l.bytes) k : Nat) := by
  rw [utf16At_eq, boundary_eq, scan_cut (units_bytes_pos u l.bytes)]

theorem utf16At_length :
    l.utf16At u l.bytes.length = ((units u l.bytes).map TextUnit.utf16Length).sum := by
  have hall : l.boundary u (units u l.bytes).length = l.bytes.length := by
    rw [boundary_eq, cut_length, units_sum]
  rw [← hall, utf16At_boundary, cut_length]

theorem byteAt_isBoundary (x : Int) : l.IsBoundary u (l.byteAt u x) := by
  obtain ⟨k, hk, hscan⟩ := scan_eq_cut TextUnit.utf16Length TextUnit.bytes (units u l.bytes) x
  exact ⟨k, hk, by rw [byteAt_eq, hscan, boundary_eq]⟩

theorem byteAt_le_length (x : Int) : l.byteAt u x ≤ l.bytes.length := by
  have hle := scan_le_sum TextUnit.utf16Length TextUnit.bytes (units u l.bytes) x
  rw [units_sum] at hle
  rw [byteAt_eq]
  exact Int.ofNat_le.mpr hle

/-- The adjunction, at a boundary and for UTF-16 offsets in the line. -/
theorem byteAt_le_iff {x : Int} (hx : x ≤ l.utf16At u l.bytes.length) (k : Nat) :
    l.byteAt u x ≤ l.boundary u k ↔ x ≤ l.utf16At u (l.boundary u k) := by
  rw [utf16At_length] at hx
  rw [utf16At_boundary, byteAt_eq, boundary_eq, Int.ofNat_le]
  exact scan_le_cut_iff (units_bytes_pos u l.bytes) hx k

/-- A boundary before the byte offset of `x` is before `x`. -/
theorem utf16At_lt {x : Int} {k : Nat} (h : l.boundary u k < l.byteAt u x) :
    l.utf16At u (l.boundary u k) < x := by
  by_contra hle
  have hx := Int.not_lt.mp hle
  have hend : l.utf16At u (l.boundary u k) ≤ l.utf16At u l.bytes.length := by
    rw [utf16At_boundary, utf16At_length, ← cut_length]
    exact Int.ofNat_le.mpr (cut_le_length _ _ k)
  have := (l.byteAt_le_iff u (Int.le_trans hx hend) k).mpr hx
  omega

end StoredLine

/-- In valid text the first characters end at a boundary. -/
theorem cut_units_utf8 {u : Utf8proc} (hu : u.DecodesUtf8) (cs : List Char) (k : Nat) :
    cut TextUnit.bytes (units u (utf8 cs)) k = (utf8 (cs.take k)).length := by
  rw [← units_sum u (utf8 (cs.take k)), units_utf8 hu, units_utf8 hu]
  simp only [cut, List.map_take]

/-- On valid text the byte offset undoes the UTF-16 offset at every code point. -/
theorem StoredLine.byteAt_utf16At (l : StoredLine) {u : Utf8proc} (hu : u.DecodesUtf8)
    {cs : List Char} (hcs : l.bytes = utf8 cs) (k : Nat) :
    l.byteAt u (l.utf16At u (utf8 (cs.take k)).length) = (utf8 (cs.take k)).length := by
  have hcounts : ∀ t ∈ units u (utf8 cs), 0 < t.utf16Length := by
    rw [units_utf8 hu]
    intro t ht
    obtain ⟨c, -, rfl⟩ := List.mem_map.mp ht
    exact charUnit_utf16Length_pos c
  rw [l.utf16At_eq, l.byteAt_eq, hcs, ← cut_units_utf8 hu]
  exact congrArg Nat.cast (scan_scan_cut (units_bytes_pos u _) hcounts k)

/-- UTF-16 and byte offsets of a line are adjoint, whatever its bytes; on valid text the byte
    offset undoes the UTF-16 offset at every code point. -/
theorem offsets_adjoint (u : Utf8proc) (l : StoredLine) :
    Monotone (l.utf16At u) ∧ Monotone (l.byteAt u) ∧
    (∀ x, l.IsBoundary u (l.byteAt u x) ∧ 0 ≤ l.byteAt u x ∧
      l.byteAt u x ≤ l.bytes.length) ∧
    (∀ k, l.utf16At u (l.boundary u k) =
      (((units u l.bytes).take k).map TextUnit.utf16Length).sum) ∧
    (∀ b x, l.IsBoundary u b → 0 ≤ x → x ≤ l.utf16At u l.bytes.length →
      (l.byteAt u x ≤ b ↔ x ≤ l.utf16At u b)) ∧
    (u.DecodesUtf8 → ∀ cs : List Char, l.bytes = utf8 cs → ∀ k,
      l.byteAt u (l.utf16At u (utf8 (cs.take k)).length) = (utf8 (cs.take k)).length) := by
  refine ⟨?_, ?_, ?_, l.utf16At_boundary u, ?_, ?_⟩
  · intro b b' hb
    rw [l.utf16At_eq, l.utf16At_eq]
    exact Int.ofNat_le.mpr (scan_monotone _ _ _ hb)
  · intro x x' hx
    rw [l.byteAt_eq, l.byteAt_eq]
    exact Int.ofNat_le.mpr (scan_monotone _ _ _ hx)
  · intro x
    refine ⟨l.byteAt_isBoundary u x, ?_, l.byteAt_le_length u x⟩
    rw [l.byteAt_eq]
    exact Int.natCast_nonneg _
  · intro b x hb _ hx
    obtain ⟨k, -, rfl⟩ := hb
    exact l.byteAt_le_iff u hx k
  · intro hu cs hcs k
    exact l.byteAt_utf16At hu hcs k

/-- `é` and an emoji: one and two code units, two and four bytes. -/
theorem offsets_adjoint_accent :
    let l : StoredLine := ⟨utf8 ['é', '😀', 'a'], [lf], by decide⟩
    l.byteAt charUtf8proc (l.utf16At charUtf8proc 6) = 6 :=
  (offsets_adjoint charUtf8proc ⟨utf8 ['é', '😀', 'a'], [lf], by decide⟩).2.2.2.2.2
    charUtf8proc_decodes ['é', '😀', 'a'] rfl 2

end BuxnLs.Analysis
