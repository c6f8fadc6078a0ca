/-
  Byte strings, positions and the text helpers of `common.h`, `common.c` and `lsp.c`:
  `labelScope`, `splitFile` and the two UTF-16 conversions. Strings are byte lists; a line keeps
  the pointer form of `buxn_ls_str_t` (the bytes from its start to the end of the file, and a
  64-bit length), because `splitFile` computes lengths by unsigned subtraction.
-/
import Mathlib.Algebra.Group.Int.Defs
import Mathlib.Algebra.Group.Nat.Defs
import Mathlib.Data.List.TakeWhile

namespace BuxnLs.Model

/-- The bytes of a string. -/
abbrev Str := List UInt8

/-- An ASCII literal of the source as bytes. -/
def ascii (s : String) : Str := s.toList.map fun c => c.toNat.toUInt8

/-- `%d`. -/
def decimal (i : Int) : Str := ascii (toString i)

/-- The bytes of a C string, up to its terminator: what `%s` and `%.*s` print. -/
def cStr (bytes : Str) : Str := bytes.takeWhile (· ≠ 0)

/-- A C string that the code also compares by address. -/
structure CStr where
  addr : Nat
  chars : Str
deriving DecidableEq, Repr

def slash : UInt8 := 0x2f
def cr : UInt8 := 0x0d
def lf : UInt8 := 0x0a

/-- `buxn_ls_label_scope`: the name up to its first slash. -/
def labelScope (name : Str) : Str := name.takeWhile (· ≠ slash)

/-! ## Positions -/

/-- `bio_lsp_position_t`. -/
structure Position where
  line : Int
  character : Int
deriving DecidableEq, Repr, Inhabited

/-- `bio_lsp_range_t`; `stop` is its `end`. -/
structure Range where
  start : Position
  stop : Position
deriving DecidableEq, Repr, Inhabited

/-- `bio_lsp_cmp_pos`. -/
def cmpPos (lhs rhs : Position) : Int :=
  if lhs.line = rhs.line then lhs.character - rhs.character else lhs.line - rhs.line

/-- The test by which the handlers of `ls.c` find a node at a position. -/
def Range.covers (r : Range) (p : Position) : Bool :=
  (r.start.line ≤ p.line ∧ p.line ≤ r.stop.line) ∧
    (r.start.character ≤ p.character ∧ p.character < r.stop.character)

/-- `buxn_asm_file_pos_t`: 1-based line and column, byte offset in the file. -/
structure AsmPos where
  line : Nat
  col : Nat
  byte : Nat
deriving DecidableEq, Repr, Inhabited

structure AsmRange where
  start : AsmPos
  stop : AsmPos
deriving DecidableEq, Repr, Inhabited

/-- `buxn_asm_source_region_t`. -/
structure AsmRegion where
  filename : CStr
  range : AsmRange
deriving DecidableEq, Repr

/-! ## Lines -/

/-- A `buxn_ls_str_t` into a file: the bytes from its pointer on, and its `size_t` length. -/
structure Line where
  chars : Str
  len : Nat
deriving DecidableEq, Repr, Inhabited

/-- Unsigned 64-bit subtraction. -/
def subSize (a b : Nat) : Nat := (a + 2 ^ 64 - b) % 2 ^ 64

/-- The loop of `buxn_ls_split_file`: unread bytes, `char_index`, `start_index`, lines so far. -/
def splitLoop (content : Str) : Str → Nat → Nat → List Line → Nat × List Line
  | [], _, start, lines => (start, lines)
  | ch :: rest, i, start, lines =>
    let line : Line := ⟨content.drop start, subSize i start⟩
    if ch = 0x0a then splitLoop content rest (i + 1) (i + 1) (lines ++ [line])
    else if ch = 0x0d then
      if rest.head? = some 0x0a then
        -- the loop goes on at the LF, behind `start_index`
        splitLoop content rest (i + 1) (i + 2) (lines ++ [line])
      else splitLoop content rest (i + 1) (i + 1) (lines ++ [line])
    else splitLoop content rest (i + 1) start lines

/-- `buxn_ls_split_file`: the lines it appends. -/
def splitFile (content : Str) : List Line :=
  match splitLoop content content 0 0 [] with
  | (start, lines) =>
    if start < content.length then
      lines ++ [⟨content.drop start, subSize content.length start⟩]
    else lines

/-- What an `int` holds after a cast or an increment that wraps. -/
def wrapInt (i : Int) : Int := (i + 2 ^ 31) % 2 ^ 32 - 2 ^ 31

theorem wrapInt_eq_self_iff {i : Int} (h : 0 ≤ i) : wrapInt i = i ↔ i < 2 ^ 31 := by
  unfold wrapInt
  omega

theorem wrapInt_wrapInt_add (i j : Int) : wrapInt (wrapInt i + j) = wrapInt (i + j) := by
  unfold wrapInt
  omega

/-- `buxn_ls_line_slice_t`; `lines` is an index into the array. -/
structure LineSlice where
  lines : Int
  numLines : Int
deriving DecidableEq, Repr

/-- The array that `buxn_ls_split_file` appends to and its local variables. -/
structure Splitting where
  array : List Line
  numLines : Int
  chars : Str
  startIndex : Nat

/-- Push `line` with the length up to `charIndex` and count it. -/
def Splitting.push (s : Splitting) (charIndex : Nat) : Splitting :=
  { s with
      array := s.array ++ [⟨s.chars, subSize charIndex s.startIndex⟩]
      numLines := wrapInt (s.numLines + 1) }

/-- Let the next line start at `index`. -/
def Splitting.startAt (s : Splitting) (content : Str) (index : Nat) : Splitting :=
  { s with chars := content.drop index, startIndex := index }

/-- The loop again, with the array and the counter of the caller. -/
def splitSteps (content : Str) : Str → Nat → Splitting → Splitting
  | [], _, s => s
  | ch :: rest, i, s =>
    if ch = 0x0a then splitSteps content rest (i + 1) ((s.push i).startAt content (i + 1))
    else if ch = 0x0d then
      if rest.head? = some 0x0a then
        splitSteps content rest (i + 1) ((s.push i).startAt content (i + 2))
      else splitSteps content rest (i + 1) ((s.push i).startAt content (i + 1))
    else splitSteps content rest (i + 1) s

/-- `buxn_ls_split_file`: the array afterwards and the slice it returns. -/
def splitFileSlice (content : Str) (lines : List Line) : List Line × LineSlice :=
  let s := splitSteps content content 0 ⟨lines, 0, content, 0⟩
  let s := if s.startIndex < content.length then s.push content.length else s
  (s.array, ⟨wrapInt lines.length, s.numLines⟩)

/-! ## UTF-16 offsets -/

/-- What the code uses of utf8proc: on a non-empty rest `utf8proc_iterate` fails (`none`) or
    returns the length of the first code point and the code point. -/
structure Utf8proc where
  iterate : Str → Option (Nat × Nat)
  iterate_bounds : ∀ s n cp, s ≠ [] → iterate s = some (n, cp) → 1 ≤ n ∧ n ≤ 4 ∧ n ≤ s.length

/-- A `size_t` read as `utf8proc_ssize_t`. -/
def signedSize (len : Nat) : Int := if len < 2 ^ 63 then len else (len : Int) - 2 ^ 64

def codeUnits (cp : Nat) : Int := if cp ≤ 0xffff then 1 else 2

def utf16Loop (u : Utf8proc) (lineLen byteOffset : Int) : Nat → Str → Int → Int → Int
  | 0, _, _, units => units
  | fuel + 1, rest, itr, units =>
    if itr ≥ byteOffset ∨ itr ≥ lineLen then units
    else
      match u.iterate rest with
      | none => utf16Loop u lineLen byteOffset fuel (rest.drop 1) (itr + 1) units
      | some (n, cp) =>
        utf16Loop u lineLen byteOffset fuel (rest.drop n) (itr + n) (units + codeUnits cp)

/-- `bio_lsp_utf16_offset_from_byte_offset`. Every iteration advances by a byte or more, so the
    line length is enough fuel. -/
def utf16OffsetFromByteOffset (u : Utf8proc) (line : Line) (byteOffset : Int) : Int :=
  let lineLen := signedSize line.len
  utf16Loop u lineLen byteOffset lineLen.toNat (line.chars.take lineLen.toNat) 0 0

def byteLoop (u : Utf8proc) (lineLen utf16Offset : Int) : Nat → Str → Int → Int → Int
  | 0, _, itr, _ => itr
  | fuel + 1, rest, itr, units =>
    if units ≥ utf16Offset ∨ itr ≥ lineLen then itr
    else
      match u.iterate rest with
      | none => byteLoop u lineLen utf16Offset fuel (rest.drop 1) (itr + 1) units
      | some (n, cp) =>
        byteLoop u lineLen utf16Offset fuel (rest.drop n) (itr + n) (units + codeUnits cp)

/-- `bio_lsp_byte_offset_from_utf16_offset`. -/
def byteOffsetFromUtf16Offset (u : Utf8proc) (line : Line) (utf16Offset : Int) : Int :=
  let lineLen := signedSize line.len
  byteLoop u lineLen utf16Offset lineLen.toNat (line.chars.take lineLen.toNat) 0 0

/-! ## C strings -/

theorem cStr_of_notMem {l : Str} (h : 0 ∉ l) : cStr l = l :=
  List.takeWhile_eq_self_iff.mpr fun c hc => by simpa using fun he : c = 0 => h (he ▸ hc)

theorem zero_notMem_cStr (l : Str) : 0 ∉ cStr l := by
  intro h
  simpa using List.mem_takeWhile_imp h

/-! ## Scopes -/

theorem slash_notMem_labelScope (name : Str) : slash ∉ labelScope name := by
  intro h
  simpa using List.mem_takeWhile_imp h

theorem labelScope_of_notMem {name : Str} (h : slash ∉ name) : labelScope name = name := by
  refine List.takeWhile_eq_self_iff.mpr fun c hc => ?_
  simpa using fun he : c = slash => h (he ▸ hc)

/-- The scope of `scope/rest` is `scope` when `scope` has no slash. -/
theorem labelScope_append_slash {scope : Str} (h : slash ∉ scope) (rest : Str) :
    labelScope (scope ++ slash :: rest) = scope := by
  unfold labelScope
  rw [List.takeWhile_append_of_pos fun c hc => by simpa using fun he : c = slash => h (he ▸ hc)]
  simp

/-- The scope of a C string is one. -/
theorem cStr_labelScope {name : Str} (h : cStr name = name) :
    cStr (labelScope name) = labelScope name :=
  cStr_of_notMem fun hz => zero_notMem_cStr name (h.symm ▸ (List.takeWhile_prefix _).subset hz)

theorem labelScope_idem (name : Str) : labelScope (labelScope name) = labelScope name :=
  labelScope_of_notMem (slash_notMem_labelScope name)

end BuxnLs.Model
