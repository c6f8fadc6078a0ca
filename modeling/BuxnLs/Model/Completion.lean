/-
  `completion.c`, and `buxn_ls_handle_completion` of `ls.c` up to the edits of the timer. The
  two recursions over the file graph run on fuel: `none` stands for a recursion that goes deeper.
-/
import BuxnLs.Model.Analyze

namespace BuxnLs.Model

open BuxnLs.Lib

/-- `buxn_ls_sym_match_type_t`. -/
inductive MatchType where
  | anySymbol
  | anyLabel
  | zeroLabel
  | localLabel
  | subLabel
  | precedingLabel
deriving DecidableEq, Repr

/-- `buxn_ls_sym_format_type_t`. -/
inductive FormatType where
  | fullName
  | localName
deriving DecidableEq, Repr

/-- `buxn_ls_sym_filter_t`; `typed` is its `prefix`. -/
structure SymFilter where
  labelsOnly : Bool
  precedingLabels : Bool
  subroutineOnly : Bool
  prefixPos : Position
  addrMin : UInt16
  addrMax : UInt16
  typed : Str
deriving Repr

/-- `buxn_ls_completion_item_t`. The `int` that counts a group wraps. -/
structure CompletionItem where
  sym : SymNode
  size : Int
  isLocal : Bool
deriving DecidableEq, Repr

/-- `buxn_ls_completion_map_t`. -/
abbrev CompletionMap := Table Str CompletionItem

/-- `buxn_ls_sym_visit_ctx_t` without the map, which is passed along. -/
structure SymVisit where
  filter : SymFilter
  currentScope : Str
  groupSymbols : Bool

/-- `buxn_ls_completion_ctx_t`; `typed` is its `prefix`. Its two byte offsets are `int`s, which
    hold them as long as a line is shorter than 2^31 bytes. -/
structure CompletionCtx where
  source : SrcNode
  sourceId : SrcId
  lineContent : Line
  typed : Str
  lspRange : Range
  lineNumber : Int
  prefixStartByte : Nat
  prefixEndByte : Nat

/-! ## Candidates -/

/-- `buxn_ls_is_subroutine`. -/
def isSubroutine (node : SymNode) : Bool :=
  node.semantics = .asSubroutine ∨
    ((node.name.dropWhile (· ≠ slash)).drop 1).head? = some 0x3e

/-- `buxn_ls_match_symbol`. -/
def matchSymbol (node : SymNode) (filter : SymFilter) : Bool :=
  (if node.type = .label then
    ¬ (filter.precedingLabels ∧ cmpPos node.range.start filter.prefixPos ≥ 0) ∧
      ¬ (filter.subroutineOnly ∧ ¬ isSubroutine node) ∧
      ¬ (node.address < filter.addrMin ∨ node.address > filter.addrMax)
  else
    ¬ filter.labelsOnly ∧ ¬ (cmpPos node.range.start filter.prefixPos ≥ 0)) ∧
  filter.typed <+: node.name

/-- The loop body of `buxn_ls_visit_symbols` for one definition. -/
def visitDefinition (visit : SymVisit) (map : CompletionMap) (node : SymNode) : CompletionMap :=
  if matchSymbol node visit.filter then
    let scope := labelScope node.name
    let isLocal : Bool := scope = visit.currentScope
    if visit.groupSymbols then
      let key := if isLocal then node.name else scope
      match map.find? key with
      | none => map.put key ⟨node, 1, isLocal⟩
      | some item =>
        -- a group is represented by its root label if possible
        map.put key
          { item with
              size := wrapInt (item.size + 1), sym := if node.name = scope then node else item.sym }
    else map.put node.name ⟨node, 1, isLocal⟩
  else map

/-- The definitions of one file in `buxn_ls_visit_symbols`. -/
def visitFile (c : AnalyzerCtx) (visit : SymVisit) (map : CompletionMap) (id : SrcId) :
    CompletionMap :=
  match c.srcs[id]? with
  | none => map
  | some src => (c.nodes src.definitions).foldl (visitDefinition visit) map

/-- `buxn_ls_visit_symbols`. -/
def visitSymbols (c : AnalyzerCtx) (visit : SymVisit) :
    Nat → CompletionMap → SrcId → Option CompletionMap :=
  descend c.srcGraph.outEdges fun map id => (visitFile c visit map id, true)

/-- `buxn_ls_visit_symbols_from_root`. -/
def visitSymbolsFromRoot (c : AnalyzerCtx) (visit : SymVisit) (fuel : Nat) :
    CompletionMap → SrcId → Option CompletionMap :=
  climb c.srcGraph.inEdges (visitSymbols c visit fuel) fuel

/-! ## What is asked for -/

/-- What the passes over runes and slashes choose. -/
structure Choice where
  matchType : MatchType
  formatType : FormatType
  typed : Str
  subroutineOnly : Bool
  textEditStart : Nat
  groupSymbols : Bool
deriving DecidableEq, Repr

/-- The case distinction on the first byte of the prefix; `none` is its early return. -/
def chooseByRune (ctx : CompletionCtx) : Option Choice :=
  match ctx.typed with
  | [] => none
  | rune :: rest =>
    let shorthand (m : MatchType) (f : FormatType) (subroutines group : Bool) : Option Choice :=
      some
        { matchType := m, formatType := f, typed := rest, subroutineOnly := subroutines,
          textEditStart := ctx.prefixStartByte + 1, groupSymbols := group }
    if rune = 0x3b ∨ rune = 0x3d then  -- ; =
      shorthand .anyLabel .fullName false true
    else if rune = 0x21 ∨ rune = 0x3f then  -- ! ?
      shorthand .anyLabel .fullName true true
    else if rune = 0x2e ∨ rune = 0x2d then  -- . -
      shorthand .zeroLabel .fullName false true
    else if rune = 0x2c ∨ rune = 0x5f then  -- , _
      shorthand .localLabel .fullName false false
    else if rune = slash then
      shorthand .subLabel .localName true false
    else if rune = 0x26 then  -- & is a declaration
      none
    else if rune = 0x7c ∨ rune = 0x24 then  -- | $
      shorthand .precedingLabel .fullName false true
    else
      some
        { matchType := .anySymbol, formatType := .fullName, typed := rune :: rest,
          subroutineOnly := true, textEditStart := ctx.prefixStartByte, groupSymbols := true }

/-- The first slash of a line at an index from `lo` up to `hi`, exclusive. -/
def firstSlash (chars : Str) (lo hi : Nat) : Option Nat :=
  (((chars.take hi).drop lo).idxOf? slash).map (lo + ·)

/-- The adjustment for `&` or `/` behind a shorthand, and for a slash further on. -/
def chooseBySlash (ctx : CompletionCtx) (ch : Choice) : Choice :=
  if ch.matchType ≠ .anySymbol ∧
      (ctx.typed[1]? = some 0x26 ∨ ctx.typed[1]? = some slash) then
    { ch with
        matchType := .subLabel, formatType := .localName, typed := ch.typed.drop 1,
        textEditStart := ctx.prefixStartByte + 2, groupSymbols := false }
  else
    match firstSlash ctx.lineContent.chars (ctx.prefixStartByte + 1) ctx.prefixEndByte with
    | some i =>
      { ch with formatType := .localName, textEditStart := i + 1, groupSymbols := false }
    | none => ch

/-- One iteration of the search for the most recent label before the prefix. -/
def recentLabel (start : Position) (best : Option SymNode × Position) (node : SymNode) :
    Option SymNode × Position :=
  if node.type = .label ∧ cmpPos node.range.start best.2 > 0 ∧
      cmpPos node.range.start start < 0 then
    (some node, node.range.start)
  else best

/-- The scope at the prefix. -/
def currentScope (c : AnalyzerCtx) (ctx : CompletionCtx) : Str :=
  match ((c.nodes ctx.source.definitions).foldl (recentLabel ctx.lspRange.start)
      (none, ⟨-1, -1⟩)).1 with
  | none => ascii "RESET"
  | some node => labelScope node.name

/-- The filter after the switch on the match type. -/
def makeFilter (ctx : CompletionCtx) (ch : Choice) (scope : Str) : SymFilter :=
  let filter : SymFilter :=
    { labelsOnly := true, precedingLabels := false, subroutineOnly := ch.subroutineOnly,
      prefixPos := ctx.lspRange.start, addrMin := 0, addrMax := 0xffff, typed := ch.typed }
  match ch.matchType with
  | .anySymbol => { filter with labelsOnly := false }
  | .localLabel => { filter with typed := scope }
  | .subLabel =>
    -- formatted, so both parts end at their first NUL
    { filter with typed := cStr scope ++ slash :: cStr ch.typed }
  | .anyLabel => filter
  | .zeroLabel => { filter with addrMax := 0x00ff }
  | .precedingLabel => { filter with precedingLabels := true }

/-! ## The reply -/

/-- `%0<width>x`. -/
def hex (width n : Nat) : Str :=
  let digits := ascii (String.ofList (Nat.toDigits 16 n))
  List.replicate (width - digits.length) 0x30 ++ digits

/-- A completion item of the reply. -/
structure CompletionEntry where
  label : Str
  filterText : Str
  kind : Nat
  detail : Option Str
  documentation : Option Str
  newText : Str
  range : Range
  sortText : Str
  /-- Ghost: the symbol of an item written by `serializeSymbol`. -/
  sym : Option SymNode
deriving DecidableEq, Repr

def itemKind : Semantics → Nat
  | .asVariable => 6
  | .asSubroutine => 3
  | .asDevicePort => 21
  | .asEnum => 20

def itemDetail (sym : SymNode) : Option Str :=
  if sym.semantics = .asSubroutine then
    if sym.signature.length > 0 then some (ascii "( " ++ cStr sym.signature ++ ascii " )") else none
  else if sym.address ≤ 0x00ff then some (ascii "|0x" ++ hex 2 sym.address.toNat)
  else some (ascii "|0x" ++ hex 4 sym.address.toNat)

def itemDocumentation (sym : SymNode) : Option Str :=
  if sym.documentation.length > 0 then some sym.documentation else none

/-- `<is_remote>:<address>:<name>`. -/
def sortKey (item : CompletionItem) (name : Str) : Str :=
  (if item.isLocal then ascii "0" else ascii "1") ++ ascii ":" ++
    hex 4 item.sym.address.toNat ++ ascii ":" ++ name

/-- `buxn_ls_serialize_completion_item_as_symbol`. -/
def serializeSymbol (item : CompletionItem) (label : Str) (range : Range) : CompletionEntry where
  label := label
  filterText := label
  kind := itemKind item.sym.semantics
  detail := itemDetail item.sym
  documentation := itemDocumentation item.sym
  newText := label
  range := range
  sortText := sortKey item item.sym.name
  sym := some item.sym

/-- The item of a group. -/
def serializeModule (item : CompletionItem) (range : Range) : CompletionEntry :=
  let scope := labelScope item.sym.name
  let isRoot : Bool := item.sym.name = scope
  { label := scope ++ [slash]
    filterText := scope
    kind := 9
    detail := some
      (ascii "( " ++ decimal (wrapInt (item.size - if isRoot then 1 else 0)) ++
        ascii " symbols )")
    documentation := if isRoot then itemDocumentation item.sym else none
    newText := scope
    range := range
    sortText := sortKey item (scope ++ [slash])
    sym := none }

/-- The items of one candidate. -/
def formatItem (format : FormatType) (range : Range) (item : CompletionItem) :
    List CompletionEntry :=
  let name := item.sym.name
  let scope := labelScope name
  let isRoot : Bool := name = scope
  match format with
  | .fullName =>
    if item.isLocal then
      [serializeSymbol item (if isRoot then name else name.drop scope.length) range]
    else
      (if item.size = 1 ∨ (isRoot ∧ item.sym.semantics ≠ .asEnum ∧
          item.sym.semantics ≠ .asDevicePort) then
        [serializeSymbol item name range]
      else []) ++
      (if item.size > 1 then [serializeModule item range] else [])
  | .localName =>
    if scope.length + 1 < name.length then
      [serializeSymbol item (name.drop (scope.length + 1)) range]
    else []

/-- `text_edit_start` as a position of the line. -/
def editRange (u : Utf8proc) (ctx : CompletionCtx) (textEditStart : Nat) : Range where
  start := ⟨ctx.lineNumber, utf16OffsetFromByteOffset u ctx.lineContent textEditStart⟩
  stop := ctx.lspRange.stop

/-- The choice of the first two passes. -/
def choose (ctx : CompletionCtx) : Option Choice :=
  (chooseByRune ctx).map (chooseBySlash ctx)

/-- The candidates of a choice. -/
def candidates (c : AnalyzerCtx) (ctx : CompletionCtx) (ch : Choice) : Option CompletionMap :=
  let scope := currentScope c ctx
  let visit : SymVisit :=
    { filter := makeFilter ctx ch scope, currentScope := scope, groupSymbols := ch.groupSymbols }
  visitSymbolsFromRoot c visit (c.srcGraph.edges.length + 1) .empty ctx.sourceId

/-- `buxn_ls_build_completion_list`; `some none` is a null reply. -/
def buildCompletionList (u : Utf8proc) (c : AnalyzerCtx) (ctx : CompletionCtx) :
    Option (Option (List CompletionEntry)) :=
  match choose ctx with
  | none => some none
  | some ch =>
    (candidates c ctx ch).map fun map =>
      some ((map.entries.map Prod.snd).flatMap
        (formatItem ch.formatType (editRange u ctx ch.textEditStart)))

/-- The start of the completion prefix: behind the last blank or tab before the cursor. -/
def completionStart (chars : Str) (byteOffset : Nat) : Nat :=
  byteOffset -
    ((chars.take byteOffset).reverse.takeWhile fun ch => ch ≠ 0x20 ∧ ch ≠ 0x09).length

/-- The context that `buxn_ls_handle_completion` builds for an open document. -/
def completionCtx (E : Env) (c : AnalyzerCtx) (docs : Docs) (path : Str) (position : Position) :
    Option CompletionCtx :=
  match docs.find? path with
  | none => none
  | some content =>
    let slice := splitFile content
    if position.line ≥ slice.length then none
    else
      let line := lineAt slice position.line
      let byteOffset := (byteOffsetFromUtf16Offset E.utf8proc line position.character).toNat
      let start := completionStart line.chars byteOffset
      if byteOffset - start = 0 then none
      else
        match c.sources.find? path with
        | none => none
        | some id =>
          (c.srcs[id]?).map fun src =>
            { source := src, sourceId := id, lineContent := line,
              typed := (line.chars.take byteOffset).drop start,
              lspRange :=
                ⟨⟨position.line, utf16OffsetFromByteOffset E.utf8proc line start⟩, position⟩,
              lineNumber := position.line, prefixStartByte := start, prefixEndByte := byteOffset }

/-- `buxn_ls_handle_completion` for a resolved path. -/
def handleCompletion (E : Env) (c : AnalyzerCtx) (docs : Docs) (path : Str)
    (position : Position) : Option (Option (List CompletionEntry)) :=
  match completionCtx E c docs path position with
  | none => some none
  | some ctx => buildCompletionList E.utf8proc c ctx

end BuxnLs.Model
