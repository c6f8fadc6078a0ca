/-
  The data of `analyze.h` and of `buxn_asm_ctx_s`. A context owns an arena of source nodes and
  one of symbol nodes; a node is addressed by its index in its arena, and the intrusive edge
  lists of `graph.h` are a `Digraph` on the indices. `definitions` and `references` list the
  linked symbol nodes from the head on.
-/
import BuxnLs.Lib.Digraph
import BuxnLs.Lib.Table
import BuxnLs.Model.Common

namespace BuxnLs.Model

open BuxnLs.Lib

/-- Index of a source node in the arena of its context. -/
abbrev SrcId := Nat

/-- Index of a symbol node in the arena of its context. -/
abbrev SymId := Nat

/-- `buxn_asm_sym_type_t`, with the token types the server ignores as `other`. -/
inductive SymType where
  | macroDef
  | label
  | macroRef
  | labelRef
  | other
deriving DecidableEq, Repr

/-- `buxn_ls_symbol_semantics_t`. -/
inductive Semantics where
  | asVariable
  | asSubroutine
  | asDevicePort
  | asEnum
deriving DecidableEq, Repr

/-- `buxn_asm_sym_t`. The name is a C string. -/
structure AsmSym where
  type : SymType
  name : Str
  nameIsGenerated : Bool
  id : UInt16
  region : AsmRegion
  name_cStr : cStr name = name := by decide
deriving DecidableEq, Repr

/-- `bio_lsp_location_t`. The `uri` is a pointer to the `uri` string of a source node, so it is
    kept as that node; `none` is the null pointer. -/
structure Location where
  uri : Option SrcId
  range : Range
deriving DecidableEq, Repr, Inhabited

/-- `buxn_ls_diagnostic_t`. A zeroed `severity` is none of the four LSP values 1 to 4. -/
structure Diagnostic where
  location : Location
  relatedLocation : Location
  severity : Nat
  source : Str
  message : Str
  relatedMessage : Option Str
deriving DecidableEq, Repr

/-- Ghost: where a symbol node comes from. A definition is emitted in the pass of an entry or
    copied from a node of the previous run by the carry-forward loop. -/
inductive Origin where
  | reference
  | emitted (entry : SrcId)
  | carried (old : SymId)
deriving DecidableEq, Repr

/-- `buxn_ls_sym_node_s`. The name is as long as `strlen` says. -/
structure SymNode where
  name : Str
  documentation : Str
  signature : Str
  source : SrcId
  type : SymType
  semantics : Semantics
  byteOffset : Nat
  range : Range
  address : UInt16
  origin : Origin
  name_cStr : cStr name = name
deriving DecidableEq, Repr

/-- `buxn_ls_src_node_s`. -/
structure SrcNode where
  filename : Str
  uri : Str
  references : List SymId
  definitions : List SymId
  analyzed : Bool
deriving DecidableEq, Repr

/-- `buxn_ls_analyzer_ctx_t`: the nodes in its arena, their edges and the `sources` table. -/
structure AnalyzerCtx where
  srcs : List SrcNode
  srcGraph : Lib.Digraph SrcId
  syms : List SymNode
  symGraph : Lib.Digraph SymId
  sources : Table Str SrcId

/-- `buxn_ls_file_t`; `firstLineIndex` is `none` where the source has -1. -/
structure File where
  content : Str
  zeroPageSemantics : Semantics
  firstLineIndex : Option Nat
  numLines : Nat
  lastSymbolByte : Nat
  hasError : Bool
deriving DecidableEq, Repr

/-- `buxn_ls_analyzer_t`. -/
structure Analyzer where
  current : AnalyzerCtx
  previous : AnalyzerCtx
  diagnostics : List Diagnostic
  files : Table Str File
  lines : List Line
  analyzeQueue : List SrcId
  macroDefs : List SymId
  labelDefs : Table UInt16 SymId
  references : List AsmSym

/-- `buxn_asm_ctx_s`: the state of one assembler pass. -/
structure AsmCtx where
  entryNode : SrcId
  previousSym : Option AsmSym
  enumScope : Str
  currentSymNode : Option SymId
  romIsEmpty : Bool
  rom : Table UInt16 UInt8

/-- `buxn_ls_init_analyzer_ctx`, and what `buxn_ls_reset_analyzer_ctx` leaves. -/
def AnalyzerCtx.empty : AnalyzerCtx where
  srcs := []
  srcGraph := .empty
  syms := []
  symGraph := .empty
  sources := .empty

/-- `buxn_ls_analyzer_init`. -/
def Analyzer.init : Analyzer where
  current := .empty
  previous := .empty
  diagnostics := []
  files := .empty
  lines := []
  analyzeQueue := []
  macroDefs := []
  labelDefs := .empty
  references := []

namespace AnalyzerCtx

/-- The source node stored under `filename` in `sources`. -/
def srcOf (c : AnalyzerCtx) (filename : Str) : Option SrcNode :=
  (c.sources.find? filename).bind (c.srcs[·]?)

/-- The symbol nodes of a list of indices. -/
def nodes (c : AnalyzerCtx) (ids : List SymId) : List SymNode := ids.filterMap (c.syms[·]?)

end AnalyzerCtx

/-! ## What the assembler and buxn-chess deliver -/

inductive ReportType where
  | warning
  | error
  | other
deriving DecidableEq, Repr

/-- `buxn_asm_report_t`. -/
structure Report where
  message : Str
  region : AsmRegion
  related : Option (Str × AsmRegion)
deriving DecidableEq, Repr

/-- The annotations of `anno_spec`. -/
inductive AnnoType where
  | doc
  | buxnDevice
  | buxnMemory
  | buxnEnum
deriving DecidableEq, Repr

/-- One call of `buxn_ls_handle_annotation`; `annotation` is `none` for a stack comment. -/
structure AnnoCall where
  addr : UInt16
  sym : AsmSym
  annotation : Option AnnoType
  region : AsmRegion
deriving DecidableEq, Repr

/-- What `buxn_chess_deo` reads of the VM state. -/
structure ChessState where
  srcRegion : AsmRegion
  wst : Str
  wstSize : Nat
  rst : Str
  rstSize : Nat
deriving DecidableEq, Repr

/-- The open documents of the workspace. -/
abbrev Docs := Table Str Str

/-- A callback of the assembler or of buxn-chess during a pass.

    * `fopen` comes with the open documents of that moment and with what reading the file from
      disk gives (`none` when an open, stat or read fails)
    * `putSymbol` comes with the handler calls that `buxn_anno_handle_symbol` makes for it
    * `chessReport` with `traceId = none` is a report with `BUXN_CHESS_NO_TRACE` -/
inductive Event where
  | fopen (docs : Docs) (filename : CStr) (disk : Option Str)
  | report (type : ReportType) (report : Report)
  | putRom (addr : UInt16) (value : UInt8)
  | putSymbol (addr : UInt16) (sym : AsmSym) (annos : List AnnoCall)
  | chessReport (traceId : Option Int) (type : ReportType) (report : Report)
  | chessDeo (traceId : Int) (state : ChessState) (value port : UInt8)

/-- The third-party code and the settings that a session is run with. `yuarelPath` is the `path`
    of `yuarel_parse`: `none` when it fails, `some none` when the URI has no path and the pointer
    is null. `formatStack` is `buxn_chess_format_stack`. `qsort` promises a sorted permutation and
    nothing about the order of equal elements. -/
structure Env where
  rootDir : Str
  utf8proc : Utf8proc
  yuarelPath : Str → Option (Option Str)
  formatStack : Str → Str
  qsort : (Diagnostic → Str) → List Diagnostic → List Diagnostic
  qsort_perm : ∀ key ds, (qsort key ds).Perm ds
  qsort_sorted : ∀ key ds, (qsort key ds).Pairwise fun a b => key a ≤ key b

end BuxnLs.Model
