/-
  `analyze.c`: line cache and position conversion, queue building, the assembler callbacks, the
  carry-forward of old symbols and the connection of references. A callback that would fail an
  assertion of the source or write through a null pointer returns `none`.
-/
import BuxnLs.Model.Analyzer

namespace BuxnLs.Model

open BuxnLs.Lib

/-! ## Lines and positions -/

/-- `buxn_ls_analyzer_split_file`; `none` is the slice with `lines = NULL`. -/
def Analyzer.splitFile (a : Analyzer) (filename : Str) : Analyzer × Option (List Line) :=
  match a.files.find? filename with
  | none => (a, none)
  | some file =>
    match file.firstLineIndex with
    | some first => (a, some ((a.lines.drop first).take file.numLines))
    | none =>
      let slice := Model.splitFile file.content
      ({ a with
          files := a.files.put filename
            { file with firstLineIndex := some a.lines.length, numLines := slice.length }
          lines := a.lines ++ slice },
        some slice)

/-- An element of a line slice. A read in front of the slice is undefined in C; here it gives an
    empty line. -/
def lineAt (slice : List Line) (i : Int) : Line :=
  if 0 ≤ i then slice.getD i.toNat default else default

/-- `buxn_ls_convert_position` on a slice. -/
def positionIn (u : Utf8proc) (slice : Option (List Line)) (pos : AsmPos) : Position :=
  let line : Int := (pos.line : Int) - 1
  match slice with
  | none => ⟨0, 0⟩
  | some lines =>
    if line ≥ lines.length then ⟨0, 0⟩
    else ⟨line, utf16OffsetFromByteOffset u (lineAt lines line) ((pos.col : Int) - 1)⟩

/-- `buxn_ls_convert_position`. -/
def convertPosition (E : Env) (a : Analyzer) (filename : Str) (pos : AsmPos) :
    Analyzer × Position :=
  match a.splitFile filename with
  | (a, slice) => (a, positionIn E.utf8proc slice pos)

/-- `buxn_ls_convert_range`. -/
def convertRange (E : Env) (a : Analyzer) (filename : Str) (range : AsmRange) :
    Analyzer × Range :=
  match convertPosition E a filename range.start with
  | (a, start) =>
    match convertPosition E a filename range.stop with
    | (a, stop) => (a, ⟨start, stop⟩)

/-- `buxn_ls_convert_region`. -/
def convertRegion (E : Env) (a : Analyzer) (region : AsmRegion) : Analyzer × Location :=
  match convertRange E a region.filename.chars region.range with
  | (a, range) => (a, ⟨a.current.sources.find? region.filename.chars, range⟩)

/-! ## Nodes -/

/-- The `uri` that `buxn_ls_alloc_node` prints for a file. -/
def uriFor (E : Env) (filename : Str) : Str := ascii "file://" ++ E.rootDir ++ filename

/-- `buxn_ls_alloc_node`. -/
def allocNode (E : Env) (a : Analyzer) (filename : Str) : Analyzer × SrcId :=
  ({ a with current := { a.current with
      srcs := a.current.srcs ++
        [{ filename := filename, uri := uriFor E filename, references := [], definitions := [],
           analyzed := false }] } },
    a.current.srcs.length)

/-- Allocate a symbol node in the current arena. -/
def Analyzer.allocSym (a : Analyzer) (node : SymNode) : Analyzer × SymId :=
  ({ a with current := { a.current with syms := a.current.syms ++ [node] } },
    a.current.syms.length)

def Analyzer.modifySrc (a : Analyzer) (id : SrcId) (f : SrcNode → SrcNode) : Analyzer :=
  { a with current := { a.current with srcs := a.current.srcs.modify id f } }

def Analyzer.modifySym (a : Analyzer) (id : SymId) (f : SymNode → SymNode) : Analyzer :=
  { a with current := { a.current with syms := a.current.syms.modify id f } }

/-- Allocate a node and link it in front of the definitions of its source. -/
def Analyzer.pushDefinition (a : Analyzer) (node : SymNode) : Analyzer × SymId :=
  match a.allocSym node with
  | (a, id) =>
    (a.modifySrc node.source fun src => { src with definitions := id :: src.definitions }, id)

/-- Allocate a node and link it in front of the references of its source. -/
def Analyzer.pushReference (a : Analyzer) (node : SymNode) : Analyzer × SymId :=
  match a.allocSym node with
  | (a, id) =>
    (a.modifySrc node.source fun src => { src with references := id :: src.references }, id)

/-- `buxn_ls_make_sym_node`, up to the allocation. `none` is its failed assertion. -/
def makeSymNode (E : Env) (a : Analyzer) (sym : AsmSym) : Option (Analyzer × SymNode) :=
  match a.current.sources.find? sym.region.filename.chars with
  | none => none
  | some src =>
    match convertRange E a sym.region.filename.chars sym.region.range with
    | (a, range) =>
      some (a,
        { name := sym.name, documentation := [], signature := [], source := src,
          type := sym.type, semantics := .asVariable, byteOffset := sym.region.range.start.byte,
          range := range, address := 0, origin := .reference, name_cStr := sym.name_cStr })

/-! ## The analysis queue -/

/-- `buxn_ls_do_queue_file`. -/
def doQueueFile (E : Env) (a : Analyzer) (filename : Str) : Analyzer :=
  match allocNode E a filename with
  | (a, node) =>
    { a with
        current := { a.current with sources := a.current.sources.put filename node }
        analyzeQueue := a.analyzeQueue ++ [node] }

/-- The visit of one node in `buxn_ls_maybe_queue_node`, and whether its children are visited. -/
def visitQueueNode (E : Env) (docs : Docs) (a : Analyzer) (node : SrcId) : Analyzer × Bool :=
  match a.previous.srcs[node]? with
  | none => (a, false)
  | some src =>
    if (a.current.sources.find? src.filename).isSome then (a, false)
    else if (docs.find? src.filename).isSome then (doQueueFile E a src.filename, true)
    else (a, true)

/-- `buxn_ls_maybe_queue_node` on the graph of the previous run; `none` when the recursion runs
    deeper than the fuel. -/
def maybeQueueNode (E : Env) (docs : Docs) (g : Lib.Digraph SrcId) :
    Nat → Analyzer → SrcId → Option Analyzer :=
  descend g.outEdges (visitQueueNode E docs)

/-- `buxn_ls_queue_from_root`. -/
def queueFromRoot (E : Env) (docs : Docs) (g : Lib.Digraph SrcId) (fuel : Nat) :
    Analyzer → SrcId → Option Analyzer :=
  climb g.inEdges (maybeQueueNode E docs g fuel) fuel

/-- One iteration of the queue-building loop of `buxn_ls_analyze`. -/
def queueDoc (E : Env) (docs : Docs) (a : Analyzer) (filename : Str) : Option Analyzer :=
  if (a.current.sources.find? filename).isSome then some a
  else
    match a.previous.sources.find? filename with
    | some node =>
      queueFromRoot E docs a.previous.srcGraph (a.previous.srcGraph.edges.length + 1) a node
    | none => some (doQueueFile E a filename)

/-- The first lines of `buxn_ls_analyze`: reset the older context and swap. -/
def swapCtx (a : Analyzer) : Analyzer :=
  { a with current := .empty, previous := a.current, analyzeQueue := [] }

/-- `buxn_ls_analyze` up to its main loop. -/
def analyzeBegin (E : Env) (docs : Docs) (a : Analyzer) : Option Analyzer :=
  (docs.keys.foldlM (queueDoc E docs) (swapCtx a)).map fun a =>
    { a with lines := [], files := .empty, diagnostics := [] }

/-! ## One assembler pass -/

/-- The analyzer and the assembler context of the pass in progress. -/
structure Pass where
  analyzer : Analyzer
  ctx : AsmCtx

/-- `buxn_asm_file_s`. -/
structure AsmFile where
  content : Str
  offset : Nat

/-- The clears and the context set up before a call of `buxn_asm`. The designated initialiser
    leaves `rom_is_empty` false. -/
def startPass (a : Analyzer) (node : SrcId) : Pass where
  analyzer := { a with macroDefs := [], labelDefs := .empty, references := [] }
  ctx :=
    { entryNode := node, previousSym := none, enumScope := [], currentSymNode := none,
      romIsEmpty := false, rom := .empty }

/-- The content `buxn_asm_fopen` finds: captured before, open in the editor, or on disk. -/
def findContent (a : Analyzer) (docs : Docs) (disk : Option Str) (filename : Str) : Option Str :=
  match a.files.find? filename with
  | some file => some file.content
  | none =>
    match docs.find? filename with
    | some content => some content
    | none => disk

/-- The entry of a file that was just read. -/
def putFile (a : Analyzer) (filename content : Str) : Analyzer :=
  let file : File :=
    { content := content, zeroPageSemantics := .asVariable, firstLineIndex := none,
      numLines := 0, lastSymbolByte := 0, hasError := false }
  { a with files := a.files.put filename file }

/-- Capture the content of a file at its first open of the run. -/
def captureFile (a : Analyzer) (filename content : Str) : Analyzer :=
  if (a.files.find? filename).isSome then a else putFile a filename content

/-- The `bhash_alloc` on `sources`: the node of a file, allocated when there is none. -/
def sourceNode (E : Env) (a : Analyzer) (filename : Str) : Analyzer × SrcId :=
  match a.current.sources.find? filename with
  | some node => (a, node)
  | none =>
    match allocNode E a filename with
    | (a, node) =>
      ({ a with current := { a.current with sources := a.current.sources.put filename node } },
        node)

/-- Mark a node as read by the assembler and link it to the entry of the pass. -/
def linkEntry (a : Analyzer) (entry node : SrcId) : Analyzer :=
  let a := a.modifySrc node fun src => { src with analyzed := true }
  if node ≠ entry then
    { a with current := { a.current with srcGraph := a.current.srcGraph.addEdge entry node } }
  else a

/-- `buxn_asm_fopen`. -/
def asmFopen (E : Env) (p : Pass) (docs : Docs) (filename : CStr) (disk : Option Str) :
    Pass × Option AsmFile :=
  match findContent p.analyzer docs disk filename.chars with
  | none => (p, none)
  | some content =>
    match sourceNode E (captureFile p.analyzer filename.chars content) filename.chars with
    | (a, node) => ({ p with analyzer := linkEntry a p.ctx.entryNode node }, some ⟨content, 0⟩)

/-- Set `has_error` of a file that is open. -/
def markError (a : Analyzer) (filename : Str) : Analyzer :=
  match a.files.find? filename with
  | none => a
  | some file => { a with files := a.files.put filename { file with hasError := true } }

def Diagnostic.zero : Diagnostic where
  location := default
  relatedLocation := default
  severity := 0
  source := []
  message := []
  relatedMessage := none

/-- The related part of a report: kept when both regions are in one file, compared by address,
    and located by the report's own region. -/
def addRelated (E : Env) (a : Analyzer) (r : Report) (d : Diagnostic) : Analyzer × Diagnostic :=
  match r.related with
  | none => (a, d)
  | some (message, region) =>
    if region.filename.addr = r.region.filename.addr then
      match convertRegion E a r.region with
      | (a, location) => (a, { d with relatedLocation := location, relatedMessage := some message })
    else (a, d)

def pushDiagnostic (a : Analyzer) (d : Diagnostic) : Analyzer :=
  { a with diagnostics := a.diagnostics ++ [d] }

def reportSeverity : ReportType → Nat
  | .error => 1
  | .warning => 2
  | .other => 3

/-- `buxn_asm_report`. -/
def asmReport (E : Env) (a : Analyzer) (type : ReportType) (r : Report) : Analyzer :=
  if r.region.range.start.line = 0 then a
  else
    let a := if type = .error then markError a r.region.filename.chars else a
    match convertRegion E a r.region with
    | (a, location) =>
      match addRelated E a r
        { Diagnostic.zero with
            location := location, message := r.message, source := ascii "buxn-asm",
            severity := reportSeverity type } with
      | (a, d) => pushDiagnostic a d

/-- The message of a chess report: `[%d] %s` with a trace, the bare message without. -/
def chessMessage (traceId : Option Int) (message : Str) : Str :=
  match traceId with
  | some id => ascii "[" ++ decimal id ++ ascii "] " ++ message
  | none => message

/-- `buxn_chess_report`. The compound literal that sets location, message and source overwrites
    the severity chosen before it with zero. -/
def chessReport (E : Env) (a : Analyzer) (traceId : Option Int) (type : ReportType)
    (r : Report) : Analyzer :=
  if r.region.range.start.line = 0 then a
  else if type = .other then a
  else
    let a := if type = .error then markError a r.region.filename.chars else a
    match convertRegion E a r.region with
    | (a, location) =>
      match addRelated E a r
        { Diagnostic.zero with
            location := location, message := chessMessage traceId r.message,
            source := ascii "buxn-chess" } with
      | (a, d) => pushDiagnostic a d

/-- The message of a stack dump. -/
def stackMessage (E : Env) (traceId : Int) (s : ChessState) : Str :=
  ascii "[" ++ decimal traceId ++ ascii "] Stack:\nWST(" ++ decimal s.wstSize ++ ascii "):" ++
    E.formatStack s.wst ++ ascii "\nRST(" ++ decimal s.rstSize ++ ascii "):" ++
    E.formatStack s.rst

/-- `buxn_chess_deo`. -/
def chessDeo (E : Env) (a : Analyzer) (traceId : Int) (s : ChessState) (value port : UInt8) :
    Analyzer :=
  if port = 0x0e ∧ value = 0x2b then
    match convertRegion E a s.srcRegion with
    | (a, location) =>
      pushDiagnostic a
        { Diagnostic.zero with
            location := location, message := stackMessage E traceId s,
            source := ascii "buxn-chess", severity := 3 }
  else a

/-- `buxn_asm_put_rom`. -/
def asmPutRom (p : Pass) (addr : UInt16) (value : UInt8) : Pass :=
  { p with ctx := { p.ctx with rom := p.ctx.rom.put (addr - 256) value, romIsEmpty := false } }

/-- `buxn_ls_slice_file`. -/
def sliceFile (a : Analyzer) (region : AsmRegion) : Str :=
  match a.files.find? region.filename.chars with
  | none => []
  | some file =>
    (file.content.drop region.range.start.byte).take
      (region.range.stop.byte - region.range.start.byte)

/-- `buxn_ls_handle_annotation`. -/
def handleAnnotation (p : Pass) (call : AnnoCall) : Option Pass :=
  match call.annotation with
  | none =>
    p.ctx.currentSymNode.map fun id =>
      { p with analyzer := p.analyzer.modifySym id fun node =>
          { node with semantics := .asSubroutine, signature := sliceFile p.analyzer call.region } }
  | some annotation =>
    match p.analyzer.files.find? call.region.filename.chars with
    | none => none
    | some file =>
      match annotation with
      | .doc =>
        p.ctx.currentSymNode.map fun id =>
          { p with analyzer := p.analyzer.modifySym id fun node =>
              { node with documentation := sliceFile p.analyzer call.region } }
      | .buxnDevice =>
        some { p with analyzer := { p.analyzer with
          files := p.analyzer.files.put call.region.filename.chars
            { file with zeroPageSemantics := .asDevicePort } } }
      | .buxnMemory =>
        some { p with analyzer := { p.analyzer with
          files := p.analyzer.files.put call.region.filename.chars
            { file with zeroPageSemantics := .asVariable } } }
      | .buxnEnum =>
        match p.ctx.currentSymNode with
        | none => none
        | some id =>
          let a := p.analyzer.modifySym id fun node => { node with semantics := .asEnum }
          some
            { analyzer := a
              ctx := { p.ctx with
                enumScope := ((a.current.syms[id]?).elim [] fun node => labelScope node.name) } }

/-- The comparison with `previous_sym` in `buxn_asm_put_symbol`. -/
def AsmCtx.repeats (ctx : AsmCtx) (sym : AsmSym) : Bool :=
  match ctx.previousSym with
  | none => false
  | some prev =>
    sym.type = prev.type ∧ sym.id = prev.id ∧
      sym.region.filename.addr = prev.region.filename.addr ∧
      sym.region.range.start.byte = prev.region.range.start.byte ∧
      sym.region.range.stop.byte = prev.region.range.stop.byte

/-- Raise `last_symbol_byte` of a file. -/
def noteSymbolByte (a : Analyzer) (filename : Str) (file : File) (byte : Nat) : Analyzer :=
  if byte > file.lastSymbolByte then
    { a with files := a.files.put filename { file with lastSymbolByte := byte } }
  else a

/-- The semantics of a new label and the enum scope after it. -/
def labelSemantics (ctx : AsmCtx) (file : File) (addr : UInt16) (name : Str) : Semantics × Str :=
  if addr ≤ 0x00ff then
    if ctx.enumScope.length > 0 ∧ labelScope name = ctx.enumScope then (.asEnum, ctx.enumScope)
    else (file.zeroPageSemantics, [])
  else (.asVariable, ctx.enumScope)

/-- The definition case of `buxn_asm_put_symbol`. -/
def putDefinition (E : Env) (p : Pass) (addr : UInt16) (sym : AsmSym) : Option Pass :=
  match p.analyzer.files.find? sym.region.filename.chars with
  | none => none
  | some file =>
    let a := noteSymbolByte p.analyzer sym.region.filename.chars file sym.region.range.start.byte
    if sym.nameIsGenerated then some { p with analyzer := a }
    else
      (makeSymNode E a sym).map fun (a, node) =>
        if sym.type = .label then
          match labelSemantics p.ctx file addr node.name with
          | (semantics, enumScope) =>
            match a.pushDefinition
              { node with
                  address := addr, semantics := semantics, origin := .emitted p.ctx.entryNode } with
            | (a, id) =>
              { analyzer := { a with labelDefs := a.labelDefs.put sym.id id }
                ctx := { p.ctx with enumScope := enumScope, currentSymNode := some id } }
        else
          match a.pushDefinition
            { node with semantics := .asSubroutine, origin := .emitted p.ctx.entryNode } with
          | (a, id) =>
            { analyzer := { a with macroDefs := a.macroDefs ++ [id] }
              ctx := { p.ctx with currentSymNode := some id } }

/-- The switch of `buxn_asm_put_symbol`. -/
def putSymNode (E : Env) (p : Pass) (addr : UInt16) (sym : AsmSym) : Option Pass :=
  match sym.type with
  | .macroDef | .label => putDefinition E p addr sym
  | .macroRef | .labelRef =>
    some { p with analyzer := { p.analyzer with references := p.analyzer.references ++ [sym] } }
  | .other => some p

/-- `buxn_asm_put_symbol`, with the handler calls made by `buxn_anno_handle_symbol`. -/
def asmPutSymbol (E : Env) (p : Pass) (addr : UInt16) (sym : AsmSym) (annos : List AnnoCall) :
    Option Pass :=
  if p.ctx.repeats sym then some p
  else
    (putSymNode E p addr sym).bind fun p =>
      annos.foldlM handleAnnotation { p with ctx := { p.ctx with previousSym := some sym } }

/-- The effect of one callback. -/
def applyEvent (E : Env) (p : Pass) : Event → Option Pass
  | .fopen docs filename disk => some (asmFopen E p docs filename disk).1
  | .report type r => some { p with analyzer := asmReport E p.analyzer type r }
  | .putRom addr value => some (asmPutRom p addr value)
  | .putSymbol addr sym annos => asmPutSymbol E p addr sym annos
  | .chessReport traceId type r =>
    some { p with analyzer := chessReport E p.analyzer traceId type r }
  | .chessDeo traceId s value port =>
    some { p with analyzer := chessDeo E p.analyzer traceId s value port }

/-! ## After the assembler -/

/-- One iteration of the copy loop over the old definitions of a file with an error. -/
def carrySymbol (source : SrcId) (lastSymbolByte : Nat) (a : Analyzer) (id : SymId) : Analyzer :=
  match a.previous.syms[id]? with
  | none => a
  | some sym =>
    if sym.byteOffset ≤ lastSymbolByte then a
    else (a.pushDefinition { sym with source := source, origin := .carried id }).1

/-- The body of the carry-forward loop for one file. -/
def carryFile (a : Analyzer) (filename : Str) (file : File) : Analyzer :=
  if file.hasError then
    match a.previous.srcOf filename, a.current.sources.find? filename with
    | some previousSrc, some currentSrc =>
      previousSrc.definitions.foldl (carrySymbol currentSrc file.lastSymbolByte) a
    | _, _ => a
  else a

/-- The loop that brings old symbols forward in files with errors. -/
def carryForward (a : Analyzer) : Analyzer :=
  a.files.entries.foldl (fun a e => carryFile a e.1 e.2) a

/-- The definition a reference resolves to. The index of a macro is not checked: the assembler is
    assumed to refer to macros that it has delivered (`RefersToDelivered`). Where the code would
    read outside `macro_defs`, the reference is left unresolved here. -/
def resolveReference (a : Analyzer) (sym : AsmSym) : Option SymId :=
  match sym.type with
  | .macroRef => if sym.id = 0 then none else a.macroDefs[sym.id.toNat - 1]?
  | .labelRef => a.labelDefs.find? sym.id
  | _ => none

/-- The body of the loop that connects references to definitions. -/
def connectReference (E : Env) (a : Analyzer) (sym : AsmSym) : Option Analyzer :=
  match resolveReference a sym with
  | none => some a
  | some defNode =>
    (makeSymNode E a sym).map fun (a, node) =>
      match a.pushReference node with
      | (a, refNode) =>
        { a with current := { a.current with
            symGraph := a.current.symGraph.addEdge refNode defNode } }

/-- What `buxn_ls_analyze` does with an entry after `buxn_asm` and buxn-chess. -/
def leavePass (E : Env) (a : Analyzer) : Option Analyzer :=
  let a := carryForward a
  a.references.foldlM (connectReference E) a

/-- The URI string that a diagnostic points to. -/
def Analyzer.uriOf (a : Analyzer) (d : Diagnostic) : Str :=
  (d.location.uri.bind (a.current.srcs[·]?)).elim [] SrcNode.uri

/-- The final sort of the diagnostics. -/
def analyzeFinish (E : Env) (a : Analyzer) : Analyzer :=
  { a with diagnostics := E.qsort a.uriOf a.diagnostics }

/-! ## The whole analysis -/

/-- What the assembler delivers for one entry: its callbacks, its result, and the callbacks of
    `buxn_chess_end` when that is run. -/
structure PassInput where
  events : List Event
  success : Bool
  chessEvents : List Event

/-- `buxn_asm` and `buxn_chess_end` on one entry. -/
def runPass (E : Env) (a : Analyzer) (node : SrcId) (input : PassInput) : Option Analyzer :=
  (input.events.foldlM (applyEvent E) (startPass a node)).bind fun p =>
    if input.success ∧ ¬ p.ctx.romIsEmpty then
      (input.chessEvents.foldlM (applyEvent E) p).bind fun p => leavePass E p.analyzer
    else leavePass E p.analyzer

def Analyzer.isAnalyzed (a : Analyzer) (node : SrcId) : Bool :=
  (a.current.srcs[node]?).elim true SrcNode.analyzed

/-- The main loop of `buxn_ls_analyze` over the queue, one input for each entry assembled. -/
def analyzeLoop (E : Env) : List SrcId → List PassInput → Analyzer → Option Analyzer
  | [], [], a => some a
  | [], _ :: _, _ => none
  | node :: queue, inputs, a =>
    if a.isAnalyzed node then analyzeLoop E queue inputs a
    else
      match inputs with
      | [] => none
      | input :: inputs => (runPass E a node input).bind (analyzeLoop E queue inputs)

/-- The open documents and what the assembler delivers during one run. -/
structure RunInput where
  docs : Docs
  passes : List PassInput

/-- `buxn_ls_analyze`. -/
def analyze (E : Env) (a : Analyzer) (input : RunInput) : Option Analyzer :=
  (analyzeBegin E input.docs a).bind fun a =>
    (analyzeLoop E a.analyzeQueue input.passes a).map (analyzeFinish E)

end BuxnLs.Model
