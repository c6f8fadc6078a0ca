/-
  The indices used on line tables. Both readers of a table return early when the line is not
  below `num_lines`, and the conversion also when the table is NULL; neither looks at the lower
  end. So a request or a region that the guards let through is in bounds exactly when its line
  is not in front of the first one: a request with a negative line is not, nor is the marker
  line 0 of the assembler, which `buxn_chess_deo` hands on.
-/
import BuxnLs.Analysis.Positions
import BuxnLs.Model.Completion

namespace BuxnLs.Analysis

open BuxnLs.Lib BuxnLs.Model

/-! ## The slices and the guards -/

/-- What the guards see of a `buxn_ls_line_slice_t`: whether `lines` is NULL, and `num_lines`. -/
structure SliceGuard where
  null : Bool
  numLines : Int
deriving DecidableEq, Repr

/-- The slice of `buxn_ls_analyzer_split_file`. `stored` says whether the array of the analyzer
    has storage: it is NULL until the first line is pushed. -/
def sliceGuard (stored : Bool) (a : Analyzer) (filename : Str) : SliceGuard :=
  match a.files.find? filename with
  | none => ⟨true, 0⟩
  | some file =>
    match file.firstLineIndex with
    | some _ => ⟨!stored, wrapInt file.numLines⟩
    | none =>
      ⟨!(stored || !(splitFile file.content).isEmpty),
        (splitFileSlice file.content a.lines).2.numLines⟩

/-- Whether the array has storage after a call of `buxn_ls_analyzer_split_file`. -/
def storedAfter (stored : Bool) (a : Analyzer) (filename : Str) : Bool :=
  stored || decide (a.lines.length < (a.splitFile filename).1.lines.length)

/-- What a reader of a table does with a line: the guard it sees, and the index it uses or `none`
    where it returns early. -/
structure TableUse where
  slice : SliceGuard
  line : Int
  index : Option Int
deriving DecidableEq, Repr

/-- `buxn_ls_convert_position`; its early return is `(0, 0)`. -/
def positionUse (slice : SliceGuard) (pos : AsmPos) : TableUse :=
  let line : Int := (pos.line : Int) - 1
  ⟨slice, line, if line ≥ slice.numLines ∨ slice.null = true then none else some line⟩

/-- `buxn_ls_convert_region`: its start and its end. -/
def regionUses (stored : Bool) (a : Analyzer) (region : AsmRegion) : List TableUse :=
  let filename := region.filename.chars
  [positionUse (sliceGuard stored a filename) region.range.start,
    positionUse (sliceGuard (storedAfter stored a filename) (a.splitFile filename).1 filename)
      region.range.stop]

/-- `buxn_ls_handle_completion`, once it has found the document. It clears its array before. -/
def completionUse (docs : Docs) (path : Str) (line : Int) : Option TableUse :=
  (docs.find? path).map fun content =>
    let slice : SliceGuard :=
      ⟨(splitFile content).isEmpty, (splitFileSlice content []).2.numLines⟩
    ⟨slice, line, if line ≥ slice.numLines then none else some line⟩

/-- The index is in the bounds of the slice, and a line outside them takes the early return. -/
structure TableUse.InBounds (use : TableUse) : Prop where
  used : ∀ i, use.index = some i → 0 ≤ i ∧ i < use.slice.numLines
  outside : use.line < 0 ∨ use.slice.numLines ≤ use.line → use.index = none

/-! ## One counter for both calls -/

/-- The counter is the number of lines pushed behind the first `base`, as an `int`. -/
def Counts (base : Nat) (s : Splitting) : Prop :=
  base ≤ s.array.length ∧ s.numLines = wrapInt (s.array.length - base)

theorem Counts.push {base : Nat} {s : Splitting} (h : Counts base s) (i : Nat) :
    Counts base (s.push i) := by
  obtain ⟨hle, hnum⟩ := h
  have hlen : (s.push i).array.length = s.array.length + 1 := by simp [Splitting.push]
  refine ⟨by omega, ?_⟩
  show wrapInt (s.numLines + 1) = _
  rw [hnum, wrapInt_wrapInt_add, hlen]
  congr 1
  omega

theorem splitSteps_counts (content rest : Str) {base : Nat} (i : Nat) {s : Splitting}
    (h : Counts base s) : Counts base (splitSteps content rest i s) := by
  induction rest generalizing i s with
  | nil => exact h
  | cons ch rest ih =>
      rw [splitSteps.eq_def]
      dsimp only
      split
      · exact ih (i + 1) (h.push i)
      · split
        · split
          · exact ih (i + 1) (h.push i)
          · exact ih (i + 1) (h.push i)
        · exact ih (i + 1) h

/-- `num_lines` is the number of lines appended, as an `int`. -/
theorem splitFileSlice_numLines (content : Str) (lines : List Line) :
    (splitFileSlice content lines).2.numLines = wrapInt (splitFile content).length := by
  have hstart : Counts lines.length ⟨lines, 0, content, 0⟩ := ⟨Nat.le_refl _, by simp [wrapInt]⟩
  have hsteps := splitSteps_counts content content 0 hstart
  have hend : Counts lines.length (lastLine content
      (splitSteps content content 0 ⟨lines, 0, content, 0⟩)) := by
    unfold lastLine
    split
    · exact hsteps.push _
    · exact hsteps
  have harray : (lastLine content (splitSteps content content 0 ⟨lines, 0, content, 0⟩)).array =
      lines ++ splitFile content := splitFileSlice_array content lines
  rw [show (splitFileSlice content lines).2.numLines = _ from hend.2, harray, List.length_append]
  congr 1
  omega

/-- The second conversion of a range finds the slice of the first. -/
theorem sliceGuard_after (stored : Bool) (a : Analyzer) (filename : Str) :
    sliceGuard (storedAfter stored a filename) (a.splitFile filename).1 filename =
      sliceGuard stored a filename := by
  cases hf : a.files.find? filename with
  | none =>
      have hsplit : a.splitFile filename = (a, none) := by simp only [Analyzer.splitFile, hf]
      rw [hsplit]
      simp only [sliceGuard, hf]
  | some file =>
      cases hi : file.firstLineIndex with
      | some first =>
          rw [storedAfter, splitFile_cached hf hi]
          simp only [sliceGuard, hf, hi, Nat.lt_irrefl, decide_false, Bool.or_false]
      | none =>
          rw [storedAfter, splitFile_fresh hf hi]
          simp only [sliceGuard, hf, hi, Table.find?_put_self, splitFileSlice_numLines,
            List.length_append]
          congr 3
          cases hlines : splitFile file.content <;> simp

/-! ## The guards against the model -/

/-- A completion whose guard returns gets no context. -/
theorem completionCtx_of_early (E : Env) (c : AnalyzerCtx) {docs : Docs} {path content : Str}
    {position : Position} (hdoc : docs.find? path = some content)
    (hfew : (splitFile content).length < 2 ^ 31)
    (h : ∀ use, completionUse docs path position.line = some use → use.index = none) :
    completionCtx E c docs path position = none := by
  have hcount := (wrapInt_eq_self_iff (Int.natCast_nonneg (splitFile content).length)).mpr
    (by omega)
  have hearly := h _ (congrArg (Option.map _) hdoc)
  dsimp only at hearly
  rw [splitFileSlice_numLines, hcount] at hearly
  unfold completionCtx
  rw [hdoc]
  dsimp only
  by_cases hline : position.line ≥ (splitFile content).length
  · rw [if_pos hline]
  · rw [if_neg hline] at hearly
    cases hearly

/-- A conversion reads the line at its index, or returns the start of the file. -/
theorem positionIn_of_use {u : Utf8proc} {lines : List Line} {slice : SliceGuard} {pos : AsmPos}
    (hcount : slice.numLines = lines.length) (hnull : slice.null = true → lines = [])
    (hpos : 1 ≤ pos.line) :
    positionIn u (some lines) pos =
      ((positionUse slice pos).index.elim ⟨0, 0⟩ fun i =>
        ⟨i, utf16OffsetFromByteOffset u (lineAt lines i) ((pos.col : Int) - 1)⟩) := by
  unfold positionIn positionUse
  dsimp only
  rw [hcount]
  by_cases hline : (pos.line : Int) - 1 ≥ lines.length
  · rw [if_pos hline, if_pos (Or.inl hline)]
    rfl
  · have hguard : ¬ ((pos.line : Int) - 1 ≥ lines.length ∨ slice.null = true) := by
      refine not_or.mpr ⟨hline, fun h => ?_⟩
      rw [hnull h, List.length_nil] at hline
      omega
    rw [if_neg hline, if_neg hguard]
    rfl

/-! ## In bounds -/

/-- A use that returns early, or not, at its own line. -/
theorem inBounds_iff {use : TableUse} {early : Prop} [Decidable early]
    (hindex : use.index = if early then none else some use.line)
    (hguard : use.slice.numLines ≤ use.line → early) :
    use.InBounds ↔ 0 ≤ use.line ∨ early := by
  by_cases h : early
  · rw [if_pos h] at hindex
    refine ⟨fun _ => Or.inr h, fun _ => ⟨fun i hi => ?_, fun _ => hindex⟩⟩
    rw [hindex] at hi
    cases hi
  · rw [if_neg h] at hindex
    have hbelow : use.line < use.slice.numLines := Int.not_le.mp fun hle => h (hguard hle)
    constructor
    · exact fun hin => Or.inl (hin.used _ hindex).1
    · intro hline
      have hnonneg : 0 ≤ use.line := hline.resolve_right h
      refine ⟨fun i hi => ?_, fun hout => ?_⟩
      · rw [hindex, Option.some.injEq] at hi
        omega
      · omega

theorem positionUse_inBounds_iff (slice : SliceGuard) (pos : AsmPos) :
    (positionUse slice pos).InBounds ↔
      1 ≤ pos.line ∨ slice.null = true ∨ slice.numLines < 0 := by
  have hline : (positionUse slice pos).line = (pos.line : Int) - 1 := rfl
  have hslice : (positionUse slice pos).slice = slice := rfl
  refine (inBounds_iff rfl Or.inl).trans ?_
  rw [hline, hslice]
  constructor
  · rintro (h | h | h)
    · exact Or.inl (by omega)
    · by_cases hpos : 1 ≤ pos.line
      · exact Or.inl hpos
      · exact Or.inr (Or.inr (by omega))
    · exact Or.inr (Or.inl h)
  · rintro (h | h | h)
    · exact Or.inl (by omega)
    · exact Or.inr (Or.inr h)
    · exact Or.inr (Or.inl (by omega))

/-- Every use of a line table is in bounds exactly when its line is not in front of the first
    one, or the guard returns early all the same. -/
theorem line_tables_inBounds_iff (docs : Docs) (path : Str) (line : Int) (stored : Bool)
    (a : Analyzer) (region : AsmRegion) :
    ((∀ use ∈ completionUse docs path line, use.InBounds) ↔
      0 ≤ line ∨ ∀ use ∈ completionUse docs path line, use.slice.numLines ≤ line) ∧
    ((∀ use ∈ regionUses stored a region, use.InBounds) ↔
      (1 ≤ region.range.start.line ∧ 1 ≤ region.range.stop.line) ∨
        (sliceGuard stored a region.filename.chars).null = true ∨
        (sliceGuard stored a region.filename.chars).numLines < 0) := by
  constructor
  · unfold completionUse
    cases docs.find? path with
    | none => simp
    | some content =>
        simp only [Option.map_some, Option.mem_def, Option.some.injEq, forall_eq']
        exact inBounds_iff rfl fun h => h
  · unfold regionUses
    dsimp only
    rw [sliceGuard_after, List.forall_mem_cons, List.forall_mem_singleton,
      positionUse_inBounds_iff, positionUse_inBounds_iff]
    constructor
    · rintro ⟨hstart | hstart, hstop | hstop⟩
      · exact Or.inl ⟨hstart, hstop⟩
      · exact Or.inr hstop
      · exact Or.inr hstart
      · exact Or.inr hstart
    · rintro (⟨hstart, hstop⟩ | hearly)
      · exact ⟨Or.inl hstart, Or.inl hstop⟩
      · exact ⟨Or.inr hearly, Or.inr hearly⟩

/-! ## In front of the first line -/

/-- A region without a source: line 0. -/
def markerRegion : AsmRegion := ⟨⟨1, ascii "a"⟩, ⟨⟨0, 0, 0⟩, ⟨0, 0, 0⟩⟩⟩

/-- A completion at line -1 of an open document, and a stack dump at the marker line of a file
    that has been read: both use the index -1. -/
theorem negative_index_used :
    (∃ use, completionUse (Table.empty.put (ascii "a") (ascii "BRK")) (ascii "a") (-1) = some use ∧
      use.index = some (-1) ∧ ¬ use.InBounds) ∧
    (∃ m use, run (step utf8Env) Machine.init (openingRun (ascii "BRK")) = some m ∧
      use ∈ regionUses false m.analyzer markerRegion ∧ use.index = some (-1) ∧
      ¬ use.InBounds) := by
  have hout : ∀ use : TableUse, use.index = some (-1) → ¬ use.InBounds :=
    fun use hindex hin => absurd (hin.used _ hindex).1 (by decide)
  refine ⟨⟨_, rfl, by decide, hout _ (by decide)⟩, ?_⟩
  have hrun : (run (step utf8Env) Machine.init (openingRun (ascii "BRK"))).map
      (fun m => (regionUses false m.analyzer markerRegion).head?.bind TableUse.index) =
        some (some (-1)) := by
    decide
  obtain ⟨m, hm, huse⟩ := Option.map_eq_some_iff.mp hrun
  obtain ⟨use, hhead, hindex⟩ := Option.bind_eq_some_iff.mp huse
  exact ⟨m, use, hm, List.mem_of_mem_head? hhead, hindex, hout use hindex⟩

end BuxnLs.Analysis
