/-
  A session of `ls.c`: the main loop, `analyze_delay_timer` and the calls of
  `buxn_ls_analyze_workspace` that its expiries start. Coroutines are cooperative: one runs until
  it suspends, an analysis at the file operations of `buxn_asm_fopen` and at its sends. All calls
  share the analyzer, so each advances the machine of `Model/Machine.lean` on it.
-/
import BuxnLs.Model.Completion
import BuxnLs.Model.Handlers
import BuxnLs.Model.Machine

namespace BuxnLs.Model

open BuxnLs.Lib

/-- A started call of `buxn_ls_analyze_workspace`: in `buxn_ls_analyze`, suspended at the file
    operations of a `buxn_asm_fopen`, or publishing. -/
inductive Job where
  | analysis (phase : Phase)
  | reading (i : Nat) (ctx : AsmCtx) (filename : CStr)
  | publishing

structure Session where
  docs : Docs
  analyzer : Analyzer
  timerPending : Bool
  /-- The calls that have started and not finished. -/
  jobs : List Job
  /-- The call that runs now; `none` lets the main loop and the timer run. -/
  active : Option Nat
  shouldTerminate : Bool

def Session.init : Session where
  docs := .empty
  analyzer := .init
  timerPending := false
  jobs := []
  active := none
  shouldTerminate := false

/-- `bio_cancel_timer`. -/
def Session.cancelTimer (s : Session) : Session := { s with timerPending := false }

/-- What `buxn_ls_handle_completion` does besides answering: it stops the timer once it has found
    a prefix to complete and the file in the current context. -/
def stopForCompletion (E : Env) (s : Session) (value : Option Json) : Session :=
  match documentPath E value with
  | none => s
  | some path =>
    if (completionCtx E s.analyzer.current s.docs path (positionOf value)).isSome then
      s.cancelTimer
    else s

/-- `buxn_ls_handle_msg`, up to its replies; `none` when it reads a null path. The main loop ends
    after `exit` and its cleanup cancels the timer. -/
def handleMsg (E : Env) (s : Session) (msg : InMsg) : Option Session :=
  match msg.type with
  | .request =>
    if requestReadsNull E s.analyzer.current msg then none
    else if msg.method = ascii "shutdown" then some s.cancelTimer
    else if msg.method = ascii "textDocument/completion" then
      some (stopForCompletion E s msg.value)
    else some s
  | .notification =>
    if msg.method = ascii "exit" then some { s.cancelTimer with shouldTerminate := true }
    else if ascii "textDocument/" <+: msg.method then
      (workspaceUpdate E s.docs msg).map fun docs =>
        -- reset when pending, created otherwise
        { s with docs := docs, timerPending := true }
    else some s
  | _ => some s

/-- What is left of `buxn_asm_fopen` behind its file operations. It has looked for the file among
    the captured ones and in the editor before they began, and captures what they gave. -/
def finishFopen (E : Env) (p : Pass) (filename : CStr) (disk : Option Str) : Pass :=
  match disk with
  | none => p
  | some content =>
    match sourceNode E (putFile p.analyzer filename.chars content) filename.chars with
    | (a, node) => { p with analyzer := linkEntry a p.ctx.entryNode node }

/-- `buxn_asm_fopen` has to read the file from disk. -/
def readsDisk (a : Analyzer) (docs : Docs) (filename : CStr) : Bool :=
  a.files.find? filename.chars = none ∧ docs.find? filename.chars = none

/-- The moves of a session.

    * `message` and `expire` are the main loop and the timer
    * `advance` is a step of the running analysis that does not suspend it
    * `readFile` suspends it at a file that is not captured and not open in the editor, and
      `fileRead` goes on with what the file operations gave
    * `send` suspends it at a message, and `resume` takes a suspended call up again -/
inductive SessionLabel where
  | message (msg : InMsg)
  | expire
  | advance (l : Label)
  | readFile (filename : CStr)
  | fileRead (disk : Option Str)
  | send
  | resume (j : Nat)
  | finished

/-- A label reads the documents of its own moment, as a map: the order in which the table lists
    them is left open. -/
def readsDocs (docs : Docs) : Label → Bool
  | .start docs' | .event (.fopen docs' _ _) => docs'.entries.isPerm docs.entries
  | _ => true

/-- A step at which the analysis suspends. -/
def suspends (a : Analyzer) (docs : Docs) : Label → Bool
  | .event (.fopen _ filename _) => readsDisk a docs filename
  | _ => false

def sessionStep (E : Env) (s : Session) : SessionLabel → Option Session
  | .message msg =>
    if s.active = none ∧ ¬ s.shouldTerminate then handleMsg E s msg else none
  | .expire =>
    -- the callback runs in a coroutine of its own
    if s.active = none ∧ s.timerPending then
      some { s with
        timerPending := false, jobs := s.jobs ++ [.analysis .idle], active := some s.jobs.length }
    else none
  | .advance l =>
    match s.active with
    | none => none
    | some j =>
      match s.jobs[j]? with
      | some (.analysis phase) =>
        if readsDocs s.docs l ∧ ¬ suspends s.analyzer s.docs l then
          (step E ⟨s.analyzer, phase⟩ l).map fun m =>
            let job : Job := match l with
              | .finish => .publishing
              | _ => .analysis m.phase
            { s with analyzer := m.analyzer, jobs := s.jobs.set j job }
        else none
      | _ => none
  | .readFile filename =>
    match s.active with
    | none => none
    | some j =>
      match s.jobs[j]? with
      | some (.analysis (.asm i ctx)) =>
        if readsDisk s.analyzer s.docs filename then
          some { s with jobs := s.jobs.set j (.reading i ctx filename), active := none }
        else none
      | _ => none
  | .fileRead disk =>
    match s.active with
    | none => none
    | some j =>
      match s.jobs[j]? with
      | some (.reading i ctx filename) =>
        let p := finishFopen E ⟨s.analyzer, ctx⟩ filename disk
        some { s with analyzer := p.analyzer, jobs := s.jobs.set j (.analysis (.asm i p.ctx)) }
      | _ => none
  | .send =>
    match s.active.bind (s.jobs[·]?) with
    | some .publishing => some { s with active := none }
    | _ => none
  | .resume j =>
    if s.active = none ∧ j < s.jobs.length then some { s with active := some j } else none
  | .finished =>
    match s.active with
    | none => none
    | some j =>
      match s.jobs[j]? with
      | some .publishing => some { s with jobs := s.jobs.eraseIdx j, active := none }
      | _ => none

end BuxnLs.Model
