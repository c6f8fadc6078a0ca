/-
  The memory of `analyze.c`: the machine of `Model/Machine.lean` together with the C objects that
  its nodes, strings and edges are. A pointer is an address; `none` is a null pointer or points
  to a literal. Objects are allocated in the arena of the current context and belong to its
  generation, which the swap at the start of a run counts up; resetting a context releases its
  generation. Only pointers that are stored are kept: a string that is printed or copied into
  an arena is a new object whatever it was copied from.
-/
import BuxnLs.Lib.Heap
import BuxnLs.Model.Machine

namespace BuxnLs.Model

open BuxnLs.Lib

abbrev Addr := Nat

abbrev Ptr := Option Addr

/-! ## Objects -/

/-- The pointers of `buxn_ls_src_node_s`. -/
structure SrcObj where
  filename : Ptr
  uri : Ptr
  references : Ptr
  definitions : Ptr
  inEdges : Ptr
  outEdges : Ptr
deriving DecidableEq

/-- The pointers of `buxn_ls_sym_node_s`. -/
structure SymObj where
  next : Ptr
  name : Ptr
  documentation : Ptr
  signature : Ptr
  source : Ptr
  inEdges : Ptr
  outEdges : Ptr
deriving DecidableEq

/-- `buxn_ls_edge_s`. -/
structure EdgeObj where
  nextIn : Ptr
  nextOut : Ptr
  fromNode : Ptr
  toNode : Ptr
deriving DecidableEq

/-- What an arena holds; `bytes` is a string, the content of a file, or memory of the assembler. -/
inductive Obj where
  | bytes
  | src (o : SrcObj)
  | sym (o : SymObj)
  | edge (o : EdgeObj)
deriving DecidableEq

/-- The fields that are read or set through a pointer. -/
inductive Field where
  | uri
  | references
  | definitions
  | inEdges
  | outEdges
  | documentation
  | signature

namespace Obj

def fields : Obj → List Addr
  | bytes => []
  | src o =>
    [o.filename, o.uri, o.references, o.definitions, o.inEdges, o.outEdges].reduceOption
  | sym o =>
    [o.next, o.name, o.documentation, o.signature, o.source, o.inEdges, o.outEdges].reduceOption
  | edge o => [o.nextIn, o.nextOut, o.fromNode, o.toNode].reduceOption

/-- `p->field`, of the fields that are read. -/
def get : Field → Obj → Ptr
  | .uri, src o => o.uri
  | .references, src o => o.references
  | .definitions, src o => o.definitions
  | .inEdges, src o => o.inEdges
  | .inEdges, sym o => o.inEdges
  | .outEdges, src o => o.outEdges
  | .outEdges, sym o => o.outEdges
  | _, _ => none

/-- `p->field = v`, of the fields that are set after an object is made. -/
def set (v : Ptr) : Field → Obj → Obj
  | .references, src o => src { o with references := v }
  | .definitions, src o => src { o with definitions := v }
  | .inEdges, src o => src { o with inEdges := v }
  | .inEdges, sym o => sym { o with inEdges := v }
  | .outEdges, src o => src { o with outEdges := v }
  | .outEdges, sym o => sym { o with outEdges := v }
  | .documentation, sym o => sym { o with documentation := v }
  | .signature, sym o => sym { o with signature := v }
  | _, o => o

end Obj

/-- The pointers of `buxn_ls_diagnostic_t`. -/
structure DiagObj where
  uri : Ptr
  relatedUri : Ptr
  source : Ptr
  message : Ptr
  relatedMessage : Ptr
deriving DecidableEq

def DiagObj.fields (d : DiagObj) : List Addr :=
  [d.uri, d.relatedUri, d.source, d.message, d.relatedMessage].reduceOption

/-- The addresses of the nodes of a context, and the pointers that `sources` has for keys. -/
structure CtxMemory where
  generation : Nat
  srcs : List Addr
  syms : List Addr
  keys : Table Str Addr

/-- The heap and what the analyzer points to: the contents of `files`, the names of the symbols in
    `references`, and the diagnostics, in the order in which they were pushed. -/
structure Memory where
  heap : Heap Nat Obj
  current : CtxMemory
  previous : CtxMemory
  contents : Table Str Addr
  references : List Addr
  diagnostics : List DiagObj

def CtxMemory.empty (generation : Nat) : CtxMemory := ⟨generation, [], [], .empty⟩

/-- `buxn_ls_analyzer_init`. -/
def Memory.init : Memory := ⟨.empty, .empty 1, .empty 0, .empty, [], []⟩

namespace Memory

/-- The pointers from which the nodes of the current context and the diagnostics are reached. -/
def roots (m : Memory) : List Addr :=
  m.current.keys.entries.map Prod.snd ++ m.current.srcs ++ m.current.syms ++
    m.diagnostics.flatMap DiagObj.fields

/-- `barena_memalign` on the arena of the current context. -/
def alloc (m : Memory) (o : Obj) : Memory × Addr :=
  ({ m with heap := (m.heap.alloc m.current.generation o).1 },
    (m.heap.alloc m.current.generation o).2)

/-- `buxn_ls_arena_strcpy` and `buxn_ls_arena_fmt`. -/
def arenaStrcpy (m : Memory) : Memory × Addr := m.alloc .bytes

/-- `buxn_ls_arena_cstrcpy`; an empty string stays a null pointer. -/
def arenaCstrcpy (m : Memory) (str : Str) : Memory × Ptr :=
  if str.length > 0 then ((m.alloc .bytes).1, some (m.alloc .bytes).2) else (m, none)

def get (m : Memory) (p : Ptr) (f : Field) : Ptr :=
  (p.bind m.heap.read).bind fun c => c.content.get f

def set (m : Memory) (p : Ptr) (f : Field) (v : Ptr) : Memory :=
  p.elim m fun p => { m with heap := m.heap.update p (Obj.set v f) }

def srcPtr (m : Memory) (id : Option SrcId) : Ptr := id.bind (m.current.srcs[·]?)

def symPtr (m : Memory) (id : Option SymId) : Ptr := id.bind (m.current.syms[·]?)

/-- `buxn_ls_graph_add_edge`. -/
def addEdge (m : Memory) (fromNode toNode : Ptr) : Memory :=
  match m.alloc (.edge
    { nextIn := m.get toNode .inEdges, nextOut := m.get fromNode .outEdges,
      fromNode := fromNode, toNode := toNode }) with
  | (m, edge) =>
    (m.set fromNode .outEdges (some edge)).set toNode .inEdges (some edge)

/-- `buxn_ls_alloc_node`, and the entry of `sources` whose key is `node->filename`. The filename
    points into the `uri`. -/
def addSource (m : Memory) (filename : Str) : Memory :=
  match m.alloc .bytes with
  | (m, uri) =>
    match m.alloc (.src
      { filename := some uri, uri := some uri, references := none, definitions := none,
        inEdges := none, outEdges := none }) with
    | (m, node) =>
      { m with current := { m.current with
          srcs := m.current.srcs ++ [node], keys := m.current.keys.put filename uri } }

/-- What `buxn_ls_make_sym_node` sets: the name is the assembler's. -/
def newSym (name source : Ptr) : SymObj where
  next := none
  name := name
  documentation := none
  signature := none
  source := source
  inEdges := none
  outEdges := none

/-- Allocate a symbol node and link it in front of a list of its source. -/
def pushSym (m : Memory) (head : Field) (o : SymObj) : Memory :=
  match m.alloc (.sym { o with next := m.get o.source head }) with
  | (m, node) =>
    let m := m.set o.source head (some node)
    { m with current := { m.current with syms := m.current.syms ++ [node] } }

def pushDefinition (m : Memory) (o : SymObj) : Memory :=
  m.pushSym .definitions o

def pushReference (m : Memory) (o : SymObj) : Memory :=
  m.pushSym .references o

def pushDiagnostic (m : Memory) (d : DiagObj) : Memory :=
  { m with diagnostics := m.diagnostics ++ [d] }

/-- The swap at the start of `buxn_ls_analyze`. -/
def swapCtx (m : Memory) : Memory :=
  { m with
      heap := m.heap.release m.previous.generation
      current := .empty (m.current.generation + 1)
      previous := m.current }

/-- The copy of the carry-forward loop. -/
def copySymbol (m : Memory) (sym : SymNode) (source : SrcId) : Memory :=
  match m.arenaCstrcpy sym.name with
  | (m, name) =>
    match m.arenaCstrcpy sym.documentation with
    | (m, documentation) =>
      match m.arenaCstrcpy sym.signature with
      | (m, signature) =>
        m.pushDefinition
          { newSym name (m.srcPtr (some source)) with
              documentation := documentation, signature := signature }

end Memory

/-! ## The callbacks -/

/-- The source node of a file, as `sources` has it. -/
def sourcePtr (a : Analyzer) (m : Memory) (filename : Str) : Ptr :=
  m.srcPtr (a.current.sources.find? filename)

/-- The `uri` of a location. -/
def uriPtr (a : Analyzer) (m : Memory) (region : AsmRegion) : Ptr :=
  m.get (sourcePtr a m region.filename.chars) .uri

/-- `buxn_asm_fopen`: the content is copied or read into the arena at the first open. -/
def fopenMemory (E : Env) (p : Pass) (m : Memory) (docs : Docs) (filename : CStr)
    (disk : Option Str) : Memory :=
  match findContent p.analyzer docs disk filename.chars with
  | none => m
  | some _ =>
    let m :=
      if (p.analyzer.files.find? filename.chars).isSome then m
      else
        match m.alloc .bytes with
        | (m, content) => { m with contents := m.contents.put filename.chars content }
    let m :=
      if (p.analyzer.current.sources.find? filename.chars).isSome then m
      else m.addSource filename.chars
    let node := (sourceNode E p.analyzer filename.chars).2
    if node ≠ p.ctx.entryNode then
      m.addEdge (m.srcPtr (some p.ctx.entryNode)) (m.srcPtr (some node))
    else m

/-- The diagnostic of a report, with `related_message` when the regions are in one file. -/
def reportMemory (a : Analyzer) (m : Memory) (r : Report) : Memory :=
  match m.arenaStrcpy with
  | (m, message) =>
    let d : DiagObj :=
      { uri := uriPtr a m r.region, relatedUri := none, source := none, message := some message,
        relatedMessage := none }
    match r.related with
    | none => m.pushDiagnostic d
    | some (_, region) =>
      if region.filename.addr = r.region.filename.addr then
        match m.arenaStrcpy with
        | (m, related) =>
          m.pushDiagnostic
            { d with relatedUri := uriPtr a m r.region, relatedMessage := some related }
      else m.pushDiagnostic d

/-- The diagnostic of `buxn_chess_deo`. -/
def stackMemory (a : Analyzer) (m : Memory) (s : ChessState) : Memory :=
  match m.arenaStrcpy with
  | (m, message) =>
    m.pushDiagnostic
      { uri := uriPtr a m s.srcRegion, relatedUri := none, source := none, message := some message,
        relatedMessage := none }

/-- `buxn_ls_handle_annotation`: the slices point into the content of a file. -/
def annotationMemory (id : Option SymId) (m : Memory) (call : AnnoCall) : Memory :=
  let slice := m.contents.find? call.region.filename.chars
  match call.annotation with
  | none => m.set (m.symPtr id) .signature slice
  | some .doc => m.set (m.symPtr id) .documentation slice
  | some _ => m

/-- The switch of `buxn_asm_put_symbol`; `name` is `sym->name`. -/
def putSymMemory (a : Analyzer) (m : Memory) (name : Addr) (sym : AsmSym) : Memory :=
  match sym.type with
  | .macroDef | .label =>
    if sym.nameIsGenerated then m
    else m.pushDefinition (Memory.newSym (some name) (sourcePtr a m sym.region.filename.chars))
  | .macroRef | .labelRef => { m with references := m.references ++ [name] }
  | .other => m

/-- `buxn_asm_put_symbol`. -/
def putSymbolMemory (E : Env) (p : Pass) (m : Memory) (name : Addr) (addr : UInt16) (sym : AsmSym)
    (annos : List AnnoCall) : Memory :=
  if p.ctx.repeats sym then m
  else
    match putSymNode E p addr sym with
    | none => m
    | some q =>
      annos.foldl (annotationMemory q.ctx.currentSymNode) (putSymMemory p.analyzer m name sym)

/-- What a callback does to the memory; `name` is the name of the symbol it delivers. -/
def eventMemory (E : Env) (p : Pass) (m : Memory) (name : Addr) : Event → Memory
  | .fopen docs filename disk => fopenMemory E p m docs filename disk
  | .report _ r => if r.region.range.start.line = 0 then m else reportMemory p.analyzer m r
  | .putRom _ _ => m
  | .putSymbol addr sym annos => putSymbolMemory E p m name addr sym annos
  | .chessReport _ type r =>
    if r.region.range.start.line = 0 then m
    else if type = .other then m
    else reportMemory p.analyzer m r
  | .chessDeo _ s value port =>
    if port = 0x0e ∧ value = 0x2b then stackMemory p.analyzer m s else m

/-! ## The loops -/

/-- The analyzer and its memory. -/
structure Tracked where
  analyzer : Analyzer
  memory : Memory

/-- `buxn_ls_do_queue_file`. -/
def trackQueueFile (E : Env) (t : Tracked) (filename : Str) : Tracked :=
  ⟨doQueueFile E t.analyzer filename, t.memory.addSource filename⟩

/-- The visit of one node in `buxn_ls_maybe_queue_node`. -/
def trackVisit (E : Env) (docs : Docs) (t : Tracked) (node : SrcId) : Tracked × Bool :=
  match t.analyzer.previous.srcs[node]? with
  | none => (t, false)
  | some src =>
    if (t.analyzer.current.sources.find? src.filename).isSome then (t, false)
    else if (docs.find? src.filename).isSome then (trackQueueFile E t src.filename, true)
    else (t, true)

/-- One iteration of the queue-building loop. -/
def trackQueueDoc (E : Env) (docs : Docs) (t : Tracked) (filename : Str) : Option Tracked :=
  if (t.analyzer.current.sources.find? filename).isSome then some t
  else
    let g := t.analyzer.previous.srcGraph
    let fuel := g.edges.length + 1
    match t.analyzer.previous.sources.find? filename with
    | some node => climb g.inEdges (descend g.outEdges (trackVisit E docs) fuel) fuel t node
    | none => some (trackQueueFile E t filename)

/-- `buxn_ls_analyze` up to its main loop. -/
def trackBegin (E : Env) (docs : Docs) (t : Tracked) : Option Tracked :=
  (docs.keys.foldlM (trackQueueDoc E docs) ⟨swapCtx t.analyzer, t.memory.swapCtx⟩).map fun t =>
    { analyzer := { t.analyzer with lines := [], files := .empty, diagnostics := [] }
      memory := { t.memory with contents := .empty, diagnostics := [] } }

/-- One iteration of the copy loop of the carry-forward. -/
def trackCarrySymbol (source : SrcId) (lastSymbolByte : Nat) (t : Tracked) (id : SymId) :
    Tracked where
  analyzer := carrySymbol source lastSymbolByte t.analyzer id
  memory :=
    match t.analyzer.previous.syms[id]? with
    | none => t.memory
    | some sym =>
      if sym.byteOffset ≤ lastSymbolByte then t.memory else t.memory.copySymbol sym source

/-- The body of the carry-forward loop for one file. -/
def trackCarryFile (t : Tracked) (e : Str × File) : Tracked :=
  if e.2.hasError then
    match t.analyzer.previous.srcOf e.1, t.analyzer.current.sources.find? e.1 with
    | some previousSrc, some currentSrc =>
      previousSrc.definitions.foldl (trackCarrySymbol currentSrc e.2.lastSymbolByte) t
    | _, _ => t
  else t

/-- The node of a reference and its edge to the definition. -/
def connectMemory (a : Analyzer) (m : Memory) (name : Ptr) (sym : AsmSym) : Memory :=
  match resolveReference a sym with
  | none => m
  | some defNode =>
    let m := m.pushReference (Memory.newSym name (sourcePtr a m sym.region.filename.chars))
    m.addEdge (m.symPtr (some a.current.syms.length)) (m.symPtr (some defNode))

/-- The loop that connects references to definitions, over the symbols and their names. -/
def trackConnect (E : Env) : List AsmSym → List Addr → Tracked → Option Tracked
  | [], _, t => some t
  | sym :: syms, names, t =>
    (connectReference E t.analyzer sym).bind fun a =>
      trackConnect E syms names.tail ⟨a, connectMemory t.analyzer t.memory names.head? sym⟩

/-- What `buxn_ls_analyze` does with an entry after `buxn_asm` and buxn-chess. -/
def trackLeave (E : Env) (t : Tracked) : Option Tracked :=
  let t := t.analyzer.files.entries.foldl trackCarryFile t
  trackConnect E t.analyzer.references t.memory.references t

/-! ## The machine with its memory -/

structure TrackedMachine where
  machine : Machine
  memory : Memory

def TrackedMachine.init : TrackedMachine := ⟨.init, .init⟩

/-- A call of `buxn_asm_alloc`, or a step of the machine. When the step delivers a symbol, `name`
    is where the assembler has its name. -/
inductive TrackedLabel where
  | asmAlloc
  | step (l : Label) (name : Addr)

/-- A step of the machine, with what it does to the memory. -/
def trackedMachineStep (E : Env) (s : TrackedMachine) (name : Addr) :
    Label → Option TrackedMachine
  | .start docs =>
    match s.machine.phase with
    | .idle =>
      (trackBegin E docs ⟨s.machine.analyzer, s.memory⟩).map fun t =>
        ⟨⟨t.analyzer, .loop 0⟩, t.memory⟩
    | _ => none
  | .enter =>
    (Model.step E s.machine .enter).map fun m => ⟨m, { s.memory with references := [] }⟩
  | .event ev =>
    match s.machine.phase.passCtx with
    | some ctx =>
      (Model.step E s.machine (.event ev)).map fun m =>
        ⟨m, eventMemory E ⟨s.machine.analyzer, ctx⟩ s.memory name ev⟩
    | none => none
  | .leave =>
    match s.machine.phase with
    | .ended i =>
      (trackLeave E ⟨s.machine.analyzer, s.memory⟩).map fun t =>
        ⟨⟨t.analyzer, .loop (i + 1)⟩, t.memory⟩
    | _ => none
  | l => (Model.step E s.machine l).map fun m => ⟨m, s.memory⟩

def trackedStep (E : Env) (s : TrackedMachine) : TrackedLabel → Option TrackedMachine
  | .asmAlloc =>
    if s.machine.phase.passCtx.isSome then some ⟨s.machine, (s.memory.alloc .bytes).1⟩ else none
  | .step l name => trackedMachineStep E s name l

end BuxnLs.Model
