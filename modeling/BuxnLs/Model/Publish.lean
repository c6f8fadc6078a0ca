/-
  `buxn_ls_analyze_workspace` of `ls.c`: the analysis, and the notifications that publish its
  diagnostics. `Server` is the machine of the analysis with the two sets of diagnosed files and
  the messages delivered so far; the step that ends an analysis also publishes.
-/
import BuxnLs.Model.Machine

namespace BuxnLs.Model

open BuxnLs.Lib

/-- `relatedInformation`. -/
structure RelatedInformation where
  message : Str
  uri : Str
  range : Range
deriving DecidableEq, Repr

/-- An element of a `diagnostics` array. -/
structure DiagnosticEntry where
  source : Str
  message : Str
  severity : Nat
  range : Range
  related : Option RelatedInformation
deriving DecidableEq, Repr

/-- A `textDocument/publishDiagnostics` notification. -/
structure PublishDiagnostics where
  uri : Str
  diagnostics : List DiagnosticEntry
deriving DecidableEq, Repr

/-- `buxn_ls_str_set_t`. -/
abbrev StrSet := Table Str Unit

structure Server where
  machine : Machine
  currentlyDiagnosed : StrSet
  previouslyDiagnosed : StrSet
  /-- The notifications delivered to the client. -/
  sent : List PublishDiagnostics
  /-- The number of sends tried so far. -/
  sends : Nat

def Server.init : Server where
  machine := .init
  currentlyDiagnosed := .empty
  previouslyDiagnosed := .empty
  sent := []
  sends := 0

/-- The object built for one diagnostic of the file `uri`. -/
def entryOf (uri : Str) (d : Diagnostic) : DiagnosticEntry where
  source := d.source
  message := d.message
  severity := d.severity
  range := d.location.range
  related := d.relatedMessage.map fun message => ⟨message, uri, d.relatedLocation.range⟩

/-- `buxn_ls_end_msg`; `ok` says which sends succeed. -/
def Server.endMsg (ok : Nat → Bool) (s : Server) (msg : PublishDiagnostics) : Server × Bool :=
  ({ s with sent := if ok s.sends then s.sent ++ [msg] else s.sent, sends := s.sends + 1 },
    ok s.sends)

/-- Move `uri` to the set of currently diagnosed files. -/
def Server.moveUri (s : Server) (uri : Str) : Server :=
  { s with
      previouslyDiagnosed := s.previouslyDiagnosed.remove uri
      currentlyDiagnosed := s.currentlyDiagnosed.put uri () }

/-- The loop over the sorted diagnostics, with `last_uri` and the message being built. `none` is
    the use of a null `uri` as a key. -/
def publishLoop (ok : Nat → Bool) (c : AnalyzerCtx) :
    List Diagnostic → Option SrcId → Option PublishDiagnostics → Server →
      Option (Server × Option PublishDiagnostics)
  | [], _, msg, s => some (s, msg)
  | d :: ds, lastUri, msg, s =>
    if d.location.uri ≠ lastUri then
      match d.location.uri.bind (c.srcs[·]?) with
      | none => none
      | some src =>
        let s := s.moveUri src.uri
        let next : PublishDiagnostics := ⟨src.uri, [entryOf src.uri d]⟩
        match msg with
        | none => publishLoop ok c ds d.location.uri (some next) s
        | some msg =>
          match s.endMsg ok msg with
          | (s, true) => publishLoop ok c ds d.location.uri (some next) s
          | (s, false) => some (s, none)
    else
      publishLoop ok c ds lastUri
        (msg.map fun m => { m with diagnostics := m.diagnostics ++ [entryOf m.uri d] }) s

/-- Unpublish one file. -/
def clearUri (ok : Nat → Bool) (s : Server) (uri : Str) : Server :=
  (s.endMsg ok ⟨uri, []⟩).1

/-- `buxn_ls_analyze_workspace` behind the analysis. -/
def publish (ok : Nat → Bool) (s : Server) : Option Server :=
  (publishLoop ok s.machine.analyzer.current s.machine.analyzer.diagnostics none none s).map
    fun (s, msg) =>
      let s := msg.elim s fun m => (s.endMsg ok m).1
      let s := s.previouslyDiagnosed.keys.foldl (clearUri ok) s
      -- clear the previous set, then swap
      { s with previouslyDiagnosed := s.currentlyDiagnosed, currentlyDiagnosed := .empty }

/-- A step of the analysis; its last one publishes. -/
def serverStep (E : Env) (ok : Nat → Bool) (s : Server) (l : Label) : Option Server :=
  (step E s.machine l).bind fun m =>
    match l with
    | .finish => publish ok { s with machine := m }
    | _ => some { s with machine := m }

/-- What the client shows for a file: the last list it was sent. -/
def clientView (sent : List PublishDiagnostics) (uri : Str) : List DiagnosticEntry :=
  sent.foldl (fun view m => if m.uri = uri then m.diagnostics else view) []

end BuxnLs.Model
