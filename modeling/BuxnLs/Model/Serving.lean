/-
  Requests around an analysis. The coroutine of `buxn_ls_analyze` suspends at the file operations
  of `buxn_asm_fopen`, which come before anything else that callback does. Until they complete the
  main loop may handle messages, and it answers a request from the current context of that moment.
-/
import BuxnLs.Model.Handlers
import BuxnLs.Model.Machine

namespace BuxnLs.Model

open BuxnLs.Lib

/-- A request that has been handled, and the current context at that moment. -/
structure Served where
  query : Query
  value : Option Json
  context : AnalyzerCtx

/-- What the client got. -/
def Served.reply (E : Env) (r : Served) : Reply := answer E r.context r.query r.value

structure Serving where
  machine : Machine
  /-- The file that a suspended `buxn_asm_fopen` reads. -/
  reading : Option (Docs × CStr)
  /-- The current context before the last analysis started. -/
  before : AnalyzerCtx
  /-- The requests handled since then. -/
  served : List Served

def Serving.init : Serving := ⟨.init, none, .empty, []⟩

/-- The moves of one coroutine of the analysis and of the main loop.

    * `advance` is a step of the analysis that does not suspend
    * `readFile` suspends it at a file that is not captured and not open in the editor, and
      `fileRead` takes it up again with what the file operations gave
    * `request` is a request that the main loop handles -/
inductive ServingLabel where
  | advance (l : Label)
  | readFile (docs : Docs) (filename : CStr)
  | request (query : Query) (value : Option Json)
  | fileRead (disk : Option Str)

def servingStep (E : Env) (s : Serving) : ServingLabel → Option Serving
  | .advance l =>
    if s.reading = none then
      (step E s.machine l).map fun m =>
        match l with
        | .start _ =>
          { machine := m, reading := none, before := s.machine.analyzer.current, served := [] }
        | _ => { s with machine := m }
    else none
  | .readFile docs filename =>
    match s.machine.phase with
    | .asm _ _ =>
      if s.reading = none ∧ s.machine.analyzer.files.find? filename.chars = none ∧
          docs.find? filename.chars = none then
        some { s with reading := some (docs, filename) }
      else none
    | _ => none
  | .request query value =>
    if (s.reading ≠ none ∨ s.machine.phase = .idle) ∧
        ¬ queryReadsNull E s.machine.analyzer.current query value then
      some { s with served := s.served ++ [⟨query, value, s.machine.analyzer.current⟩] }
    else none
  | .fileRead disk =>
    match s.reading with
    | none => none
    | some (docs, filename) =>
      (step E s.machine (.event (.fopen docs filename disk))).map fun m =>
        { s with machine := m, reading := none }

end BuxnLs.Model
