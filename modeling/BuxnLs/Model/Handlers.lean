/-
  The handlers of `ls.c` that read the current context: definition, references, hover, document
  symbols and workspace symbols. `none` is the null result.
-/
import BuxnLs.Model.Workspace

namespace BuxnLs.Model

open BuxnLs.Lib

/-- `position` of a request. -/
def positionOf (value : Option Json) : Position :=
  let position := Json.get value (ascii "position")
  ⟨Json.getInt (Json.get position (ascii "line")),
    Json.getInt (Json.get position (ascii "character"))⟩

/-- The source node of the file that a request is about. -/
def requestSource (E : Env) (c : AnalyzerCtx) (value : Option Json) : Option SrcNode :=
  (documentPath E value).bind c.srcOf

/-- The node is there and its range covers the position. -/
def AnalyzerCtx.coversAt (c : AnalyzerCtx) (position : Position) (id : SymId) : Bool :=
  (c.syms[id]?).elim false fun node => node.range.covers position

/-- The loop over `references` in `buxn_ls_find_definition`. -/
def findReference (E : Env) (c : AnalyzerCtx) (value : Option Json) : Option SymId :=
  (requestSource E c value).bind fun src => src.references.find? (c.coversAt (positionOf value))

/-- `buxn_ls_find_definition`. -/
def findDefinition (E : Env) (c : AnalyzerCtx) (value : Option Json) : Option SymId :=
  (findReference E c value).bind fun ref => (c.symGraph.outEdges ref).head?

/-- `uri` of the source of a node. -/
def AnalyzerCtx.uriOfSym (c : AnalyzerCtx) (node : SymNode) : Str :=
  (c.srcs[node.source]?).elim [] SrcNode.uri

/-- `uri` and `range` of a location. -/
structure LocationReply where
  uri : Str
  range : Range
deriving DecidableEq, Repr

def AnalyzerCtx.locationOf (c : AnalyzerCtx) (node : SymNode) : LocationReply :=
  ⟨c.uriOfSym node, node.range⟩

/-- `buxn_ls_handle_find_definition`. -/
def handleFindDefinition (E : Env) (c : AnalyzerCtx) (value : Option Json) :
    Option LocationReply :=
  ((findDefinition E c value).bind fun id => c.syms[id]?).map c.locationOf

/-- `buxn_ls_handle_find_references`. -/
def handleFindReferences (E : Env) (c : AnalyzerCtx) (value : Option Json) :
    Option (List LocationReply) :=
  ((requestSource E c value).bind fun src =>
    src.definitions.find? (c.coversAt (positionOf value))).map fun defNode =>
      (c.nodes (c.symGraph.inEdges defNode)).map c.locationOf

/-- `contents.value` and `range` of a hover. -/
structure HoverReply where
  value : Str
  range : Range
deriving DecidableEq, Repr

/-- The text of a hover. Each part of it ends at its first NUL. -/
def hoverText (node : SymNode) (filename : Str) : Str :=
  let signatureLine :=
    if node.signature.length > 0 then ascii "( " ++ cStr node.signature ++ ascii " )" else []
  cStr node.name ++ ascii " " ++ signatureLine ++ ascii "\nDefined in: " ++ cStr filename ++
    ascii "\n\n" ++ cStr node.documentation

/-- `buxn_ls_handle_hover`. -/
def handleHover (E : Env) (c : AnalyzerCtx) (value : Option Json) : Option HoverReply :=
  ((findDefinition E c value).bind fun id => c.syms[id]?).bind fun node =>
    (resolvePath E (some (c.uriOfSym node))).map fun _ =>
      { value := hoverText node ((c.srcs[node.source]?).elim [] SrcNode.filename)
        range := node.range }

/-- `buxn_ls_convert_symbol_semantics`. -/
def convertSymbolSemantics : Semantics → Nat
  | .asVariable => 8
  | .asSubroutine => 12
  | .asDevicePort => 14
  | .asEnum => 22

structure DocSymbolReply where
  name : Str
  kind : Nat
  range : Range
  selectionRange : Range
deriving DecidableEq, Repr

def docSymbol (node : SymNode) : DocSymbolReply where
  name := node.name
  kind := convertSymbolSemantics node.semantics
  range := node.range
  selectionRange := node.range

/-- `buxn_ls_handle_list_doc_symbols`. -/
def handleListDocSymbols (E : Env) (c : AnalyzerCtx) (value : Option Json) :
    Option (List DocSymbolReply) :=
  (requestSource E c value).map fun src => (c.nodes src.definitions).map docSymbol

structure WorkspaceSymbolReply where
  name : Str
  kind : Nat
  location : LocationReply
deriving DecidableEq, Repr

def AnalyzerCtx.workspaceSymbol (c : AnalyzerCtx) (node : SymNode) : WorkspaceSymbolReply where
  name := node.name
  kind := convertSymbolSemantics node.semantics
  location := c.locationOf node

/-- The source nodes in the order of the `sources` table. -/
def AnalyzerCtx.sourceNodes (c : AnalyzerCtx) : List SrcNode :=
  c.sources.entries.filterMap fun e => c.srcs[e.2]?

/-- `buxn_ls_handle_list_workspace_symbols`. The query is read as a C string. -/
def handleListWorkspaceSymbols (c : AnalyzerCtx) (value : Option Json) :
    Option (List WorkspaceSymbolReply) :=
  (Json.getStr (Json.get value (ascii "query"))).map fun query =>
    c.sourceNodes.flatMap fun src =>
      ((c.nodes src.definitions).filter fun node =>
        query.takeWhile (· ≠ 0) <+: node.name).map c.workspaceSymbol

/-! ## One request -/

/-- The requests that read the current context only. -/
inductive Query where
  | definition
  | references
  | hover
  | documentSymbol
  | workspaceSymbol
deriving DecidableEq, Repr

inductive Reply where
  | location (reply : Option LocationReply)
  | locations (reply : Option (List LocationReply))
  | hover (reply : Option HoverReply)
  | docSymbols (reply : Option (List DocSymbolReply))
  | workspaceSymbols (reply : Option (List WorkspaceSymbolReply))
deriving DecidableEq, Repr

/-- The entry of `BUXN_LS_REQUEST_HANDLERS` for a query. -/
def answer (E : Env) (c : AnalyzerCtx) (query : Query) (value : Option Json) : Reply :=
  match query with
  | .definition => .location (handleFindDefinition E c value)
  | .references => .locations (handleFindReferences E c value)
  | .hover => .hover (handleHover E c value)
  | .documentSymbol => .docSymbols (handleListDocSymbols E c value)
  | .workspaceSymbol => .workspaceSymbols (handleListWorkspaceSymbols c value)

/-- The handler of a query reads a null path: that of the document, or for a hover the path of
    the file with the definition. -/
def queryReadsNull (E : Env) (c : AnalyzerCtx) (query : Query) (value : Option Json) : Bool :=
  match query with
  | .definition | .references | .documentSymbol => readsNull E (documentUri value)
  | .hover =>
    readsNull E (documentUri value) ||
      ((findDefinition E c value).bind fun id => c.syms[id]?).elim false fun node =>
        readsNull E (some (c.uriOfSym node))
  | .workspaceSymbol => false

/-- The methods of `BUXN_LS_REQUEST_HANDLERS` that are queries. -/
def queryMethods : List (Str × Query) :=
  [(ascii "textDocument/definition", .definition),
    (ascii "textDocument/references", .references),
    (ascii "textDocument/hover", .hover),
    (ascii "textDocument/documentSymbol", .documentSymbol),
    (ascii "workspace/symbol", .workspaceSymbol)]

/-- The handler of a request reads a null path. -/
def requestReadsNull (E : Env) (c : AnalyzerCtx) (msg : InMsg) : Bool :=
  if msg.method = ascii "textDocument/completion" then readsNull E (documentUri msg.value)
  else
    (queryMethods.find? fun h => h.1 = msg.method).elim false fun h =>
      queryReadsNull E c h.2 msg.value

end BuxnLs.Model
