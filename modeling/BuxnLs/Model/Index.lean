/-
  What the analyzer is for: an index of the symbols of the open files. Here it is one log of
  entries, without source nodes, linked lists, edges or a line cache: a file is its name, a link
  is the number of the definition in the log, a position is read off a fresh split. `Indexer` goes
  through the same run as the machine of `analyze.c`, and `Index.answer` says what a request gets.
-/
import BuxnLs.Lib.Log
import BuxnLs.Model.Handlers
import BuxnLs.Model.Machine

namespace BuxnLs.Model

open BuxnLs.Lib

/-- A symbol of the index. A reference has the number of its definition as `target`. -/
structure IndexEntry where
  file : Str
  name : Str
  documentation : Str
  signature : Str
  semantics : Semantics
  byteOffset : Nat
  range : Range
  target : Option Nat
deriving DecidableEq, Repr

structure Index where
  files : List Str
  log : List IndexEntry
deriving DecidableEq, Repr

namespace Index

def empty : Index := ⟨[], []⟩

def addFile (ix : Index) (file : Str) : Index :=
  if file ∈ ix.files then ix else { ix with files := ix.files ++ [file] }

def add (ix : Index) (e : IndexEntry) : Index := { ix with log := ix.log ++ [e] }

def rewrite (ix : Index) (number : Nat) (f : IndexEntry → IndexEntry) : Index :=
  { ix with log := ix.log.modify number f }

/-! ## Requests -/

def isDefinitionIn (file : Str) (e : IndexEntry) : Bool := e.file = file ∧ e.target = none

def isReferenceIn (file : Str) (e : IndexEntry) : Bool := e.file = file ∧ e.target ≠ none

def refersTo (number : Nat) (e : IndexEntry) : Bool := e.target = some number

/-- The definitions in a file, newest first. -/
def definitionsIn (ix : Index) (file : Str) : List IndexEntry :=
  (newest (isDefinitionIn file) ix.log).map Prod.fst

/-- The newest of the references in a file that cover a position. -/
def referenceAt (ix : Index) (file : Str) (position : Position) : Option IndexEntry :=
  ((newest (isReferenceIn file) ix.log).find? fun e => e.1.range.covers position).map Prod.fst

/-- The newest of the definitions in a file that cover a position. -/
def definitionAt (ix : Index) (file : Str) (position : Position) : Option Nat :=
  ((newest (isDefinitionIn file) ix.log).find? fun e => e.1.range.covers position).map Prod.snd

/-- The definition of the reference at a position. -/
def definitionOf (ix : Index) (file : Str) (position : Position) : Option IndexEntry :=
  ((ix.referenceAt file position).bind IndexEntry.target).bind fun number => ix.log[number]?

/-- The references to a definition, newest first. -/
def referencesTo (ix : Index) (number : Nat) : List IndexEntry :=
  (newest (refersTo number) ix.log).map Prod.fst

end Index

namespace IndexEntry

def location (E : Env) (e : IndexEntry) : LocationReply := ⟨uriFor E e.file, e.range⟩

def hover (E : Env) (e : IndexEntry) : Option HoverReply :=
  (resolvePath E (some (uriFor E e.file))).map fun _ =>
    { value := cStr e.name ++ ascii " " ++
        (if e.signature.length > 0 then ascii "( " ++ cStr e.signature ++ ascii " )" else []) ++
        ascii "\nDefined in: " ++ cStr e.file ++ ascii "\n\n" ++ cStr e.documentation
      range := e.range }

def docSymbol (e : IndexEntry) : DocSymbolReply where
  name := e.name
  kind := convertSymbolSemantics e.semantics
  range := e.range
  selectionRange := e.range

def workspaceSymbol (E : Env) (e : IndexEntry) : WorkspaceSymbolReply where
  name := e.name
  kind := convertSymbolSemantics e.semantics
  location := e.location E

end IndexEntry

/-- What the index answers to a request. -/
def Index.answer (E : Env) (ix : Index) (query : Query) (value : Option Json) : Reply :=
  let file := documentPath E value
  let position := positionOf value
  match query with
  | .definition =>
    .location ((file.bind fun f => ix.definitionOf f position).map (IndexEntry.location E))
  | .references =>
    .locations ((file.bind fun f => ix.definitionAt f position).map fun number =>
      (ix.referencesTo number).map (IndexEntry.location E))
  | .hover => .hover ((file.bind fun f => ix.definitionOf f position).bind (IndexEntry.hover E))
  | .documentSymbol =>
    .docSymbols (file.bind fun f =>
      if f ∈ ix.files then some ((ix.definitionsIn f).map IndexEntry.docSymbol) else none)
  | .workspaceSymbol =>
    .workspaceSymbols ((Json.getStr (Json.get value (ascii "query"))).map fun query =>
      ix.files.flatMap fun f =>
        ((ix.definitionsIn f).filter fun e =>
          query.takeWhile (· ≠ 0) <+: e.name).map (IndexEntry.workspaceSymbol E))

/-- A request that has no answer: its handler reads a null path, that of the document or, for a
    hover, that of the file with the definition. -/
def Index.readsNullPath (E : Env) (ix : Index) (query : Query) (value : Option Json) : Bool :=
  match query with
  | .definition | .references | .documentSymbol => readsNull E (documentUri value)
  | .hover =>
    readsNull E (documentUri value) ||
      ((documentPath E value).bind fun f => ix.definitionOf f (positionOf value)).elim false
        fun e => readsNull E (some (uriFor E e.file))
  | .workspaceSymbol => false

/-! ## Building the index -/

/-- A file read in this run. -/
structure Captured where
  content : Str
  zeroPageSemantics : Semantics
  lastSymbolByte : Nat
  hasError : Bool
deriving DecidableEq, Repr

structure Indexer where
  index : Index
  /-- The index of the run before. -/
  older : Index
  captured : Table Str Captured
  macros : List Nat
  labels : Table UInt16 Nat
  /-- The references of the pass, resolved when it ends. -/
  pending : List AsmSym

def Indexer.init : Indexer := ⟨.empty, .empty, .empty, [], .empty, []⟩

/-- What a pass remembers between its events. -/
structure IndexPass where
  previousSym : Option AsmSym
  enumScope : Str
  /-- The newest definition. -/
  recent : Option Nat
  romIsEmpty : Bool

def IndexPass.start : IndexPass := ⟨none, [], none, false⟩

/-- The reported symbol is the one before it again. -/
def IndexPass.repeats (p : IndexPass) (sym : AsmSym) : Bool :=
  match p.previousSym with
  | none => false
  | some prev =>
    sym.type = prev.type ∧ sym.id = prev.id ∧
      sym.region.filename.addr = prev.region.filename.addr ∧
      sym.region.range.start.byte = prev.region.range.start.byte ∧
      sym.region.range.stop.byte = prev.region.range.stop.byte

namespace Indexer

/-- The place of a region in the captured content of its file. -/
def rangeOf (E : Env) (s : Indexer) (region : AsmRegion) : Range :=
  let slice := (s.captured.find? region.filename.chars).map fun file => splitFile file.content
  ⟨positionIn E.utf8proc slice region.range.start, positionIn E.utf8proc slice region.range.stop⟩

/-- The captured text of a region. -/
def textAt (s : Indexer) (region : AsmRegion) : Str :=
  (s.captured.find? region.filename.chars).elim [] fun file =>
    (file.content.drop region.range.start.byte).take
      (region.range.stop.byte - region.range.start.byte)

/-- Change what is kept of a captured file. -/
def note (s : Indexer) (file : Str) (f : Captured → Captured) : Indexer :=
  match s.captured.find? file with
  | none => s
  | some captured => { s with captured := s.captured.put file (f captured) }

/-- A file is read: from the capture of this run, from the editor, or from disk. -/
def fopen (s : Indexer) (docs : Docs) (file : Str) (disk : Option Str) : Indexer :=
  match s.captured.find? file with
  | some _ => { s with index := s.index.addFile file }
  | none =>
    match docs.find? file <|> disk with
    | none => s
    | some content =>
      { s with
          index := s.index.addFile file
          captured := s.captured.put file ⟨content, .asVariable, 0, false⟩ }

/-- An error about a source region marks the file of the region. -/
def report (s : Indexer) (type : ReportType) (r : Report) : Indexer :=
  if r.region.range.start.line ≠ 0 ∧ type = .error then
    s.note r.region.filename.chars fun file => { file with hasError := true }
  else s

/-- The entry of a symbol; `none` when its file is not in the index. -/
def entry (E : Env) (s : Indexer) (sym : AsmSym) : Option IndexEntry :=
  if sym.region.filename.chars ∈ s.index.files then
    some
      { file := sym.region.filename.chars, name := sym.name, documentation := [], signature := []
        semantics := .asVariable, byteOffset := sym.region.range.start.byte
        range := s.rangeOf E sym.region, target := none }
  else none

/-- What kind of thing a label is, and the enum scope after it. -/
def kindOf (p : IndexPass) (file : Captured) (addr : UInt16) (name : Str) : Semantics × Str :=
  if addr ≤ 0x00ff then
    if p.enumScope.length > 0 ∧ labelScope name = p.enumScope then (.asEnum, p.enumScope)
    else (file.zeroPageSemantics, [])
  else (.asVariable, p.enumScope)

/-- A definition is reported. -/
def define (E : Env) (s : Indexer) (p : IndexPass) (addr : UInt16) (sym : AsmSym) :
    Option (Indexer × IndexPass) :=
  match s.captured.find? sym.region.filename.chars with
  | none => none
  | some file =>
    let s := s.note sym.region.filename.chars fun file =>
      { file with lastSymbolByte := max file.lastSymbolByte sym.region.range.start.byte }
    if sym.nameIsGenerated then some (s, p)
    else
      (s.entry E sym).map fun e =>
        let number := s.index.log.length
        if sym.type = .label then
          let (semantics, enumScope) := kindOf p file addr sym.name
          ({ s with
              index := s.index.add { e with semantics := semantics }
              labels := s.labels.put sym.id number },
            { p with enumScope := enumScope, recent := some number })
        else
          ({ s with
              index := s.index.add { e with semantics := .asSubroutine }
              macros := s.macros ++ [number] },
            { p with recent := some number })

/-- An annotation or a stack comment, of the newest definition or of its file. -/
def annotate (s : Indexer) (p : IndexPass) (call : AnnoCall) : Option (Indexer × IndexPass) :=
  let file := call.region.filename.chars
  let rewritten (f : IndexEntry → IndexEntry) : Option Indexer :=
    p.recent.map fun number => { s with index := s.index.rewrite number f }
  match call.annotation with
  | none =>
    (rewritten fun e =>
      { e with semantics := .asSubroutine, signature := s.textAt call.region }).map (·, p)
  | some annotation =>
    if s.captured.find? file = none then none
    else
      match annotation with
      | .doc => (rewritten fun e => { e with documentation := s.textAt call.region }).map (·, p)
      | .buxnDevice =>
        some (s.note file fun file => { file with zeroPageSemantics := .asDevicePort }, p)
      | .buxnMemory =>
        some (s.note file fun file => { file with zeroPageSemantics := .asVariable }, p)
      | .buxnEnum =>
        (rewritten fun e => { e with semantics := .asEnum }).map fun s' =>
          (s', { p with
            enumScope := ((p.recent.bind (s.index.log[·]?)).elim [] fun e => labelScope e.name) })

/-- A symbol is reported, with its annotations. -/
def symbol (E : Env) (s : Indexer) (p : IndexPass) (addr : UInt16) (sym : AsmSym)
    (annos : List AnnoCall) : Option (Indexer × IndexPass) :=
  if p.repeats sym then some (s, p)
  else
    (match sym.type with
      | .macroDef | .label => s.define E p addr sym
      | .macroRef | .labelRef => some ({ s with pending := s.pending ++ [sym] }, p)
      | .other => some (s, p)).bind fun (s, p) =>
        annos.foldlM (fun sp call => sp.1.annotate sp.2 call)
          (s, { p with previousSym := some sym })

/-- One event of a pass. -/
def event (E : Env) (s : Indexer) (p : IndexPass) : Event → Option (Indexer × IndexPass)
  | .fopen docs filename disk => some (s.fopen docs filename.chars disk, p)
  | .report type r => some (s.report type r, p)
  | .putRom _ _ => some (s, { p with romIsEmpty := false })
  | .putSymbol addr sym annos => s.symbol E p addr sym annos
  | .chessReport _ type r => some (s.report type r, p)
  | .chessDeo _ _ _ _ => some (s, p)

/-- The symbols of the older index that a file with an error keeps: those behind the last symbol
    of this run. -/
def kept (s : Indexer) (file : Str) (captured : Captured) : List IndexEntry :=
  if captured.hasError ∧ file ∈ s.index.files then
    (s.older.definitionsIn file).filter fun e => captured.lastSymbolByte < e.byteOffset
  else []

/-- The definition of a reference. -/
def resolve (s : Indexer) (sym : AsmSym) : Option Nat :=
  match sym.type with
  | .macroRef => if sym.id = 0 then none else s.macros[sym.id.toNat - 1]?
  | .labelRef => s.labels.find? sym.id
  | _ => none

/-- Add a reference when it resolves. -/
def connect (E : Env) (s : Indexer) (sym : AsmSym) : Option Indexer :=
  match s.resolve sym with
  | none => some s
  | some number =>
    (s.entry E sym).map fun e =>
      { s with index := s.index.add { e with target := some number } }

def extend (s : Indexer) (es : List IndexEntry) : Indexer :=
  { s with index := { s.index with log := s.index.log ++ es } }

/-- A pass ends: files with errors keep old symbols, then the references are connected. -/
def leave (E : Env) (s : Indexer) : Option Indexer :=
  s.pending.foldlM (connect E) (s.extend (s.captured.entries.flatMap fun e => s.kept e.1 e.2))

/-- A run starts over the open `files`. -/
def start (s : Indexer) (files : List Str) : Indexer :=
  { s with index := ⟨files, []⟩, older := s.index, captured := .empty }

end Indexer

/-! ## Runs -/

inductive IndexPhase where
  | idle
  | loop
  | asm (p : IndexPass)
  | chess (p : IndexPass)
  | ended

structure IndexState where
  indexer : Indexer
  phase : IndexPhase

def IndexState.init : IndexState := ⟨.init, .idle⟩

/-- The steps of a run. It starts over the open documents in any order; which of them become
    entries of a pass, and when, is left open. -/
inductive IndexStep (E : Env) : IndexState → Label → IndexState → Prop where
  | start {s : Indexer} {docs files} : files.Perm docs.keys →
      IndexStep E ⟨s, .idle⟩ (.start docs) ⟨s.start files, .loop⟩
  | skip {s : Indexer} : IndexStep E ⟨s, .loop⟩ .skip ⟨s, .loop⟩
  | enter {s : Indexer} :
      IndexStep E ⟨s, .loop⟩ .enter
        ⟨{ s with macros := [], labels := .empty, pending := [] }, .asm .start⟩
  | asm {s s' : Indexer} {p p' ev} : s.event E p ev = some (s', p') →
      IndexStep E ⟨s, .asm p⟩ (.event ev) ⟨s', .asm p'⟩
  | chess {s s' : Indexer} {p p' ev} : s.event E p ev = some (s', p') →
      IndexStep E ⟨s, .chess p⟩ (.event ev) ⟨s', .chess p'⟩
  | asmDone {s : Indexer} {p} : p.romIsEmpty = false →
      IndexStep E ⟨s, .asm p⟩ (.asmDone true) ⟨s, .chess p⟩
  | asmEnded {s : Indexer} {p success} : ¬ (success = true ∧ p.romIsEmpty = false) →
      IndexStep E ⟨s, .asm p⟩ (.asmDone success) ⟨s, .ended⟩
  | chessDone {s : Indexer} {p} : IndexStep E ⟨s, .chess p⟩ .chessDone ⟨s, .ended⟩
  | leave {s s' : Indexer} : s.leave E = some s' →
      IndexStep E ⟨s, .ended⟩ .leave ⟨s', .loop⟩
  | finish {s : Indexer} : IndexStep E ⟨s, .loop⟩ .finish ⟨s, .idle⟩

/-- A run of the index. -/
inductive IndexRun (E : Env) (init : IndexState) : List Label → IndexState → Prop where
  | nil : IndexRun E init [] init
  | step {ls s l t} : IndexRun E init ls s → IndexStep E s l t → IndexRun E init (ls ++ [l]) t

end BuxnLs.Model
