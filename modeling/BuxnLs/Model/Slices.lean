/-
  The line array of the analyzer with the `int` fields that address it. `first_line_index` is
  -1 until a file is split, and casts and counters wrap at 2^31. A slice is the index range of
  `analyzer->lines` that it points to.
-/
import BuxnLs.Lib.Table
import BuxnLs.Model.Common

namespace BuxnLs.Model

open BuxnLs.Lib

/-- What `buxn_ls_file_t` has for its lines. -/
structure SplitState where
  content : Str
  firstLineIndex : Int
  numLines : Int

/-- `lines` and `files` of the analyzer. `placed` is a ghost: where in the array the lines of a
    file were put when it was last split. -/
structure LineTable where
  lines : List Line
  files : Table Str SplitState
  placed : Table Str Nat

def LineTable.empty : LineTable := ⟨[], .empty, .empty⟩

namespace LineTable

/-- The capture of a file in `buxn_asm_fopen`. -/
def openFile (t : LineTable) (filename content : Str) : LineTable :=
  if (t.files.find? filename).isSome then t
  else
    { t with
        files := t.files.put filename { content := content, firstLineIndex := -1, numLines := 0 } }

/-- `buxn_ls_analyzer_split_file`; `none` is the NULL slice of a file that is not open. -/
def split (t : LineTable) (filename : Str) : LineTable × Option LineSlice :=
  match t.files.find? filename with
  | none => (t, none)
  | some file =>
    if file.firstLineIndex ≥ 0 then (t, some ⟨file.firstLineIndex, file.numLines⟩)
    else
      match splitFileSlice file.content t.lines with
      | (lines, slice) =>
        ({ lines := lines
           files := t.files.put filename
             { file with firstLineIndex := wrapInt t.lines.length, numLines := slice.numLines }
           placed := t.placed.put filename t.lines.length }, some slice)

/-- The lines that a slice points to; `none` when it points outside of the array. -/
def range (t : LineTable) (slice : LineSlice) : Option (List Line) :=
  if 0 ≤ slice.lines ∧ 0 ≤ slice.numLines ∧ slice.lines + slice.numLines ≤ t.lines.length then
    some ((t.lines.drop slice.lines.toNat).take slice.numLines.toNat)
  else none

end LineTable

/-- What happens to the table during a session: a run starts, a file is opened or split. -/
inductive TableOp where
  | reset
  | openFile (filename content : Str)
  | split (filename : Str)

def tableStep (t : LineTable) : TableOp → Option LineTable
  | .reset => some .empty
  | .openFile filename content => some (t.openFile filename content)
  | .split filename => some (t.split filename).1

end BuxnLs.Model
