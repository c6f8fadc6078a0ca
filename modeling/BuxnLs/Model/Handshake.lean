/-
  `buxn_ls` of `ls.c`: the two phases of the handshake, the main loop and the label `end` that all
  exits go through, around the session of `Model/Session.lean`.
-/
import BuxnLs.Model.Session

namespace BuxnLs.Model

/-- What the code uses of a URI that yuarel parses; a null pointer is `none`. -/
structure Url where
  scheme : Option Str
  path : Option Str
deriving DecidableEq, Repr

/-- `path` of a URI that parses and has the scheme `file`. A URI that parses and has no scheme
    has no result: `strcmp` reads its null pointer. -/
def filePath (yuarelParse : Str → Option Url) (uri : Option Str) : Option (Option Str) :=
  match uri.bind yuarelParse with
  | none => some none
  | some url => url.scheme.map fun scheme => if scheme = ascii "file" then url.path else none

/-- `root_dir` in `buxn_ls_initialize`: from `workspaceFolders`, from `rootUri` or from
    `rootPath`. -/
def rootDirOf (yuarelParse : Str → Option Url) (value : Option Json) : Option (Option Str) :=
  let workspace := (Json.items (Json.get value (ascii "workspaceFolders"))).head?
  (filePath yuarelParse (Json.getStr (Json.get workspace (ascii "uri")))).bind fun
    | some rootDir => some (some rootDir)
    | none =>
      (filePath yuarelParse (Json.getStr (Json.get value (ascii "rootUri")))).map fun
        | some rootDir => some rootDir
        | none => Json.getStr (Json.get value (ascii "rootPath"))

/-- Where the main coroutine waits for a message. -/
inductive Waiting where
  | forInitialize
  | forInitialized
  | serving
  | returned
deriving DecidableEq, Repr

/-- A call of `buxn_ls`. -/
structure Connection where
  waiting : Waiting
  /-- The local variable, which both phases of the handshake use. -/
  initialized : Bool
  /-- `buxn_ls_initialize` has completed. -/
  created : Bool
  /-- The calls of `buxn_ls_cleanup`. -/
  cleanups : Nat
  exitCode : Nat
  session : Session

def Connection.init : Connection where
  waiting := .forInitialize
  initialized := false
  created := false
  cleanups := 0
  exitCode := 1
  session := .init

/-- The label `end`. `buxn_ls_cleanup` cancels the timer; what else it frees is not modelled. -/
def Connection.finish (s : Connection) : Connection :=
  if s.initialized then
    { s with waiting := .returned, cleanups := s.cleanups + 1, session := s.session.cancelTimer }
  else { s with waiting := .returned }

/-- The first loop, on a message; `none` when `buxn_ls_initialize` has no result. -/
def awaitInitialize (yuarelParse : Str → Option Url) (s : Connection) (msg : InMsg) :
    Option Connection :=
  match msg.type with
  | .notification =>
    some (if msg.method = ascii "exit" then { s with exitCode := 0 }.finish else s)
  | .request =>
    if msg.method = ascii "initialize" then
      (rootDirOf yuarelParse msg.value).map fun
        | none => s.finish
        | some _ =>
          -- `initialized` becomes true, the loop ends, and the next one starts with false
          { s with waiting := .forInitialized, initialized := false, created := true }
    else some s.finish
  | _ => some s.finish

/-- The second loop, on a message. -/
def awaitInitialized (s : Connection) (msg : InMsg) : Connection :=
  match msg.type with
  | .notification =>
    if msg.method = ascii "exit" then { s with exitCode := 0 }.finish
    else if msg.method = ascii "initialized" then
      { s with waiting := .serving, initialized := true }
    else s
  | _ => s.finish

inductive ConnectionLabel where
  /-- `buxn_ls_recv_msg` gives a message. -/
  | recv (msg : InMsg)
  /-- It fails. -/
  | recvFailed
  /-- A move of the timer or of an analysis. -/
  | coroutine (l : SessionLabel)

def connectionStep (E : Env) (yuarelParse : Str → Option Url) (s : Connection) :
    ConnectionLabel → Option Connection
  | .recv msg =>
    if s.session.active = none then
      match s.waiting with
      | .forInitialize => awaitInitialize yuarelParse s msg
      | .forInitialized => some (awaitInitialized s msg)
      | .serving =>
        (sessionStep E s.session (.message msg)).map fun session =>
          let s := { s with session := session }
          if session.shouldTerminate then { s with exitCode := 0 }.finish else s
      | .returned => none
    else none
  | .recvFailed =>
    if s.session.active = none ∧ s.waiting ≠ .returned then some s.finish else none
  | .coroutine (.message _) => none
  | .coroutine l => (sessionStep E s.session l).map fun session => { s with session := session }

end BuxnLs.Model
