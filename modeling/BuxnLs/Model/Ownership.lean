/-
  Who frees what. `workspace.c` keeps the root path, the path of each open document and its text
  in blocks of their own, and `ls.c` the URIs of the diagnosed files and the JSON document of the
  message it builds. Here these functions run with their blocks; a function that frees or reads
  what is not live has no result.
-/
import BuxnLs.Lib.Blocks
import BuxnLs.Model.Publish
import BuxnLs.Model.Workspace

namespace BuxnLs.Model

open BuxnLs.Lib

/-! ## The store of open documents -/

/-- An entry of `docs`: the key, and the `buxn_ls_str_t` of the text. -/
structure DocEntry where
  key : Nat
  chars : Option Nat
  len : Nat

/-- `buxn_ls_workspace_t`. -/
structure Workspace where
  blocks : Blocks Str
  rootDir : Nat
  docs : Table Str DocEntry

/-- `buxn_ls_workspace_init`. -/
def workspaceInit (rootDir : Str) : Workspace :=
  let (blocks, p) := Blocks.empty.malloc (workspaceRoot rootDir)
  { blocks := blocks, rootDir := p, docs := .empty }

/-- A copy of a text; an empty one has no block. -/
def copyText (b : Blocks Str) (content : Str) : Blocks Str × Option Nat :=
  if content.length > 0 then
    let (b, p) := b.malloc content
    (b, some p)
  else (b, none)

/-- What `didOpen` and `didChange` do to the entry of a document, a new one or the old one. -/
def setDoc (w : Workspace) (path content : Str) : Option Workspace :=
  match w.docs.find? path with
  | none =>
    let (blocks, key) := w.blocks.malloc path
    let (blocks, chars) := copyText blocks content
    some { w with blocks := blocks, docs := w.docs.put path ⟨key, chars, content.length⟩ }
  | some doc =>
    (w.blocks.freePtr doc.chars).map fun blocks =>
      let (blocks, chars) := copyText blocks content
      { w with blocks := blocks, docs := w.docs.put path ⟨doc.key, chars, content.length⟩ }

/-- What `didClose` does. -/
def removeDoc (w : Workspace) (path : Str) : Option Workspace :=
  match w.docs.find? path with
  | none => some w
  | some doc =>
    (w.blocks.free doc.key).bind fun blocks =>
      (blocks.freePtr doc.chars).map fun blocks =>
        { w with blocks := blocks, docs := w.docs.remove path }

/-- `updateDocument` with its blocks. -/
def updateDocumentOwned (w : Workspace) (path : Str) (msg : InMsg) : Option Workspace :=
  if msg.method = ascii "textDocument/didOpen" then
    setDoc w path (textOfJson (Json.get msg.value (ascii "textDocument")))
  else if msg.method = ascii "textDocument/didChange" then
    let lastChange := (Json.items (Json.get msg.value (ascii "contentChanges"))).getLast?
    setDoc w path (textOfJson lastChange)
  else if msg.method = ascii "textDocument/didClose" then removeDoc w path
  else some w

/-- `buxn_ls_workspace_update`, which resolves paths against the root path in its block; `none`
    also when it reads a null path. -/
def workspaceUpdateOwned (E : Env) (w : Workspace) (msg : InMsg) : Option Workspace :=
  if msg.type = .notification then
    (w.blocks.read w.rootDir).bind fun rootDir =>
      if readsNull E (documentUri msg.value) then none
      else
        match documentPath { E with rootDir := rootDir } msg.value with
        | none => some w
        | some path => updateDocumentOwned w path msg
  else some w

/-- The frees of one entry in `buxn_ls_workspace_cleanup`. -/
def freeDoc (b : Blocks Str) (e : Str × DocEntry) : Option (Blocks Str) :=
  (b.free e.2.key).bind fun b => b.freePtr e.2.chars

/-- `buxn_ls_workspace_cleanup`; the blocks it leaves. -/
def workspaceCleanup (w : Workspace) : Option (Blocks Str) :=
  (w.docs.entries.foldlM freeDoc w.blocks).bind fun b => b.free w.rootDir

/-- The text of a document, read through its entry. -/
def docText (b : Blocks Str) (doc : DocEntry) : Option Str :=
  match doc.chars with
  | none => some []
  | some p => (b.read p).map fun text => text.take doc.len

/-! ## The diagnosed files -/

/-- A block of `buxn_ls_analyze_workspace`: the copy of a URI, or the document of a message. -/
inductive DiagBlock where
  | uri (uri : Str)
  | doc

/-- The server with the keys of its two sets. -/
structure Publisher where
  server : Server
  blocks : Blocks DiagBlock
  current : Table Str Nat
  previous : Table Str Nat

def Publisher.init : Publisher := ⟨.init, .empty, .empty, .empty⟩

/-- Move a URI to the set of currently diagnosed files: the key that is in the previous set, or a
    copy. -/
def Publisher.moveUri (p : Publisher) (uri : Str) : Publisher :=
  match p.previous.find? uri with
  | some key =>
    { p with
      server := p.server.moveUri uri
      previous := p.previous.remove uri
      current := p.current.put uri key }
  | none =>
    let (blocks, key) := p.blocks.malloc (.uri uri)
    { p with
      server := p.server.moveUri uri
      blocks := blocks
      previous := p.previous.remove uri
      current := p.current.put uri key }

/-- `buxn_ls_begin_msg`: the document of a new message. -/
def Publisher.beginMsg (p : Publisher) : Publisher × Nat :=
  let (blocks, doc) := p.blocks.malloc .doc
  ({ p with blocks := blocks }, doc)

/-- `buxn_ls_end_msg`, which frees the document whether the send succeeds or not. -/
def Publisher.endMsg (ok : Nat → Bool) (p : Publisher) (msg : PublishDiagnostics) (doc : Nat) :
    Option (Publisher × Bool) :=
  (p.blocks.free doc).map fun blocks =>
    ({ p with server := (p.server.endMsg ok msg).1, blocks := blocks },
      (p.server.endMsg ok msg).2)

/-- The loop of `publishLoop`; the message that is being built has a document. -/
def publishLoopOwned (ok : Nat → Bool) (c : AnalyzerCtx) :
    List Diagnostic → Option SrcId → Option (PublishDiagnostics × Nat) → Publisher →
      Option (Publisher × Option (PublishDiagnostics × Nat))
  | [], _, msg, p => some (p, msg)
  | d :: ds, lastUri, msg, p =>
    if d.location.uri ≠ lastUri then
      match d.location.uri.bind (c.srcs[·]?) with
      | none => none
      | some src =>
        let p := p.moveUri src.uri
        let next : PublishDiagnostics := ⟨src.uri, [entryOf src.uri d]⟩
        match msg with
        | none =>
          let (p, doc) := p.beginMsg
          publishLoopOwned ok c ds d.location.uri (some (next, doc)) p
        | some (msg, doc) =>
          match p.endMsg ok msg doc with
          | none => none
          | some (p, true) =>
            let (p, doc) := p.beginMsg
            publishLoopOwned ok c ds d.location.uri (some (next, doc)) p
          | some (p, false) => some (p, none)
    else
      publishLoopOwned ok c ds lastUri
        (msg.map fun m =>
          ({ m.1 with diagnostics := m.1.diagnostics ++ [entryOf m.1.uri d] }, m.2)) p

/-- Unpublish one file, whose URI is read from its key, and free the key. -/
def clearUriOwned (ok : Nat → Bool) (p : Publisher) (e : Str × Nat) : Option Publisher :=
  match p.blocks.read e.2 with
  | some (.uri uri) =>
    let (p, doc) := p.beginMsg
    (p.endMsg ok ⟨uri, []⟩ doc).bind fun (p, _) =>
      (p.blocks.free e.2).map fun blocks => { p with blocks := blocks }
  | _ => none

/-- The last message, when there is one. -/
def Publisher.endLast (ok : Nat → Bool) (p : Publisher) :
    Option (PublishDiagnostics × Nat) → Option Publisher
  | none => some p
  | some (msg, doc) => (p.endMsg ok msg doc).map Prod.fst

/-- Clear the previous set, whose keys are free, and swap. -/
def Publisher.swap (p : Publisher) : Publisher where
  server :=
    { p.server with
      previouslyDiagnosed := p.server.currentlyDiagnosed, currentlyDiagnosed := .empty }
  blocks := p.blocks
  current := .empty
  previous := p.current

/-- `publish` with its blocks. -/
def publishOwned (ok : Nat → Bool) (p : Publisher) : Option Publisher :=
  let a := p.server.machine.analyzer
  (publishLoopOwned ok a.current a.diagnostics none none p).bind fun (p, msg) =>
    (p.endLast ok msg).bind fun p =>
      (p.previous.entries.foldlM (clearUriOwned ok) p).map Publisher.swap

def publisherStep (E : Env) (ok : Nat → Bool) (p : Publisher) (l : Label) : Option Publisher :=
  (step E p.server.machine l).bind fun m =>
    match l with
    | .finish => publishOwned ok { p with server := { p.server with machine := m } }
    | _ => some { p with server := { p.server with machine := m } }

/-- The frees of the diagnosed files in `buxn_ls_cleanup`; the blocks it leaves. -/
def diagnosedCleanup (p : Publisher) : Option (Blocks DiagBlock) :=
  p.previous.entries.foldlM (fun b e => b.free e.2) p.blocks

end BuxnLs.Model
