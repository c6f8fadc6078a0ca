/-
  The ints of a completion request. `buxn_ls_handle_completion` finds its offsets as `ptrdiff_t`
  and stores them in the `int` fields of the context, where `buxn_ls_build_completion_list`
  computes with them; `Model.Completion` has the same search on offsets of any size. A cast or a
  sum that does not fit wraps.
-/
import BuxnLs.Model.Completion

namespace BuxnLs.Model

open BuxnLs.Lib

/-- The fields of `buxn_ls_completion_ctx_t` that describe the text before the cursor; the two
    `lsp` fields are the characters of its `lsp_range`. -/
structure EditCtx where
  lineContent : Line
  typed : Str
  lspStart : Int
  lspEnd : Int
  prefixStartByte : Int
  prefixEndByte : Int
deriving DecidableEq, Repr

/-- `buxn_ls_handle_completion` from the line of the cursor on. -/
def editCtx (u : Utf8proc) (line : Line) (character : Int) : EditCtx :=
  let byteOffset := (byteOffsetFromUtf16Offset u line character).toNat
  let start := completionStart line.chars byteOffset
  { lineContent := line
    typed := (line.chars.take byteOffset).drop start
    lspStart := wrapInt (utf16OffsetFromByteOffset u line start)
    lspEnd := character
    prefixStartByte := wrapInt start
    prefixEndByte := wrapInt byteOffset }

/-- The match type of the first byte of a prefix; `none` is the early return. -/
def runeMatch (rune : UInt8) : Option MatchType :=
  if rune = 0x3b ∨ rune = 0x3d then some .anyLabel  -- ; =
  else if rune = 0x21 ∨ rune = 0x3f then some .anyLabel  -- ! ?
  else if rune = 0x2e ∨ rune = 0x2d then some .zeroLabel  -- . -
  else if rune = 0x2c ∨ rune = 0x5f then some .localLabel  -- , _
  else if rune = slash then some .subLabel
  else if rune = 0x26 then none  -- &
  else if rune = 0x7c ∨ rune = 0x24 then some .precedingLabel  -- | $
  else some .anySymbol

/-- `line_content.chars[i]`; `outside` is what a read outside the string finds. -/
def charAt (outside : Int → UInt8) (chars : Str) (i : Int) : UInt8 :=
  if 0 ≤ i then chars.getD i.toNat (outside i) else outside i

/-- The loop over the prefix that looks for a slash, for some more iterations from `i` on. -/
def slashLoop (read : Int → UInt8) : Nat → Int → Option Int
  | 0, _ => none
  | more + 1, i => if read i = slash then some i else slashLoop read more (i + 1)

/-- `text_edit_start` of `buxn_ls_build_completion_list`; `none` is a null reply. -/
def textEditStart (outside : Int → UInt8) (ctx : EditCtx) : Option Int :=
  match ctx.typed with
  | [] => none
  | rune :: rest =>
    (runeMatch rune).map fun matchType =>
      if matchType ≠ .anySymbol ∧ (rest.head? = some 0x26 ∨ rest.head? = some slash) then
        wrapInt (ctx.prefixStartByte + 2)
      else
        let i := wrapInt (ctx.prefixStartByte + 1)
        match slashLoop (charAt outside ctx.lineContent.chars) (ctx.prefixEndByte - i).toNat i with
        | some i => wrapInt (i + 1)
        | none =>
          if matchType = .anySymbol then ctx.prefixStartByte
          else wrapInt (ctx.prefixStartByte + 1)

/-- The start character of `edit_range`; its end is `lspEnd`. -/
def lspTextEditStart (u : Utf8proc) (ctx : EditCtx) (textEditStart : Int) : Int :=
  wrapInt (utf16OffsetFromByteOffset u ctx.lineContent textEditStart)

end BuxnLs.Model
