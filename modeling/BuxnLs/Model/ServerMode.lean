/-
  `server.c`: the coroutine of `server_entry`, the exit handler and one coroutine of `ls_wrapper`
  for each client. Each of them runs until it suspends. The arguments of a wrapper are a local
  variable of the accept loop, so the wrapper copies them and raises `ready_sig` before the loop
  goes on. A call of `buxn_ls` is a connection of `Model/Handshake.lean`.
-/
import BuxnLs.Lib.Table
import BuxnLs.Model.Handshake

namespace BuxnLs.Model

open BuxnLs.Lib

/-- `server_sock`, and the sockets that `bio_net_accept` gives one after the other. -/
inductive Socket where
  | server
  | client (n : Nat)
deriving DecidableEq, Repr

/-- `args_t`, less the two pointers that all clients share. -/
structure Args where
  client : Socket
  readySig : Nat
deriving DecidableEq, Repr

/-- Where a coroutine of `ls_wrapper` is; behind its first statement it has its own copy of
    `args.client`. -/
inductive WrapperPhase where
  /-- It has not run yet. -/
  | spawned
  /-- In `buxn_ls`. -/
  | serving (client : Socket)
  /-- In `bio_net_close`. -/
  | closing (client : Socket)
  | ended (client : Socket)
deriving DecidableEq, Repr

/-- The socket that the wrapper serves. -/
def WrapperPhase.client? : WrapperPhase → Option Socket
  | .spawned => none
  | .serving client | .closing client | .ended client => some client

def WrapperPhase.hasEnded : WrapperPhase → Bool
  | .ended _ => true
  | _ => false

/-- `bio_net_close` has been called on its socket. -/
def WrapperPhase.hasClosed : WrapperPhase → Bool
  | .closing _ | .ended _ => true
  | _ => false

structure Wrapper where
  phase : WrapperPhase
  /-- Its call of `buxn_ls`. -/
  connection : Connection

/-- Where `server_entry` is suspended. -/
inductive ServerPhase where
  /-- In `bio_net_listen`. -/
  | listening
  /-- It has returned 1, since `bio_net_listen` failed. -/
  | failed
  /-- In `bio_net_accept`. -/
  | accepting
  /-- In `bio_wait_for_one_signal`. -/
  | handingOver
  /-- In `bio_net_close`, behind the accept loop. -/
  | closing
  /-- In `bio_join` on a client. -/
  | joining (client : Nat)
  /-- In `bio_join` on the exit handler. -/
  | joiningExit
  /-- It has returned 0. -/
  | returned
deriving DecidableEq, Repr

/-- Where `exit_handler` is. -/
inductive ExitPhase where
  | unspawned
  | waiting
  | closing
  | ended
deriving DecidableEq, Repr

structure ServerMode where
  phase : ServerPhase
  shouldTerminate : Bool
  exitHandler : ExitPhase
  /-- The local variable of the loop body; `none` out of its scope. -/
  args : Option Args
  /-- The connections accepted so far; they number the sockets and the signals. -/
  accepted : Nat
  raised : List Nat
  /-- The coroutines spawned for clients so far. -/
  wrappers : List Wrapper
  /-- The set of `server_ctx_t`. -/
  clients : Table Nat Unit
  /-- The calls of `bio_net_close`. -/
  closed : List Socket
  /-- A wrapper has read arguments that were out of scope. -/
  dangling : Bool
  /-- The calls of `barena_pool_cleanup`. -/
  poolCleanups : Nat

def ServerMode.init : ServerMode where
  phase := .listening
  shouldTerminate := false
  exitHandler := .unspawned
  args := none
  accepted := 0
  raised := []
  wrappers := []
  clients := .empty
  closed := []
  dangling := false
  poolCleanups := 0

/-- The end of the accept loop and `bio_net_close` behind it. -/
def ServerMode.leaveLoop (s : ServerMode) : ServerMode :=
  { s with phase := .closing, closed := s.closed ++ [.server] }

/-- The head of the loop that waits for the clients. -/
def ServerMode.joinNext (s : ServerMode) : ServerMode :=
  match s.clients.keys with
  | [] => { s with phase := .joiningExit }
  | j :: _ => { s with phase := .joining j }

/-- The moves of the coroutines.

    * `listen` and `accept` are the results of `bio_net_listen` and `bio_net_accept`, `ready` ends
      the wait for the signal, and `listenerClosed`, `joined` and `exitJoined` end the later waits
      of `server_entry`
    * `start` is the first run of a wrapper, `session` a move of its `buxn_ls` and `clientClosed`
      the end of its `bio_net_close`
    * `exit` and `exitClosed` are the exit handler, once `bio_wait_for_exit` returns -/
inductive ServerModeLabel where
  | listen (ok : Bool)
  | accept (ok : Bool)
  | ready
  | listenerClosed
  | joined
  | exitJoined
  | start (j : Nat)
  | session (j : Nat) (l : ConnectionLabel)
  | clientClosed (j : Nat)
  | exit
  | exitClosed

/-- A move of the session of the wrapper `j`. When `buxn_ls` returns, the wrapper goes on to close
    its socket. -/
def serveClient (s : ServerMode) (j : Nat) (phase : WrapperPhase) (connection : Connection) :
    Option ServerMode :=
  match phase with
  | .spawned => none
  | .serving client =>
    if connection.waiting = .returned then
      some { s with
        wrappers := s.wrappers.set j ⟨.closing client, connection⟩
        closed := s.closed ++ [client] }
    else some { s with wrappers := s.wrappers.set j ⟨.serving client, connection⟩ }
  -- an analysis of the session that has not finished
  | phase => some { s with wrappers := s.wrappers.set j ⟨phase, connection⟩ }

/-- `env j` is what the session of the `j`-th client uses of its surroundings. -/
def serverModeStep (env : Nat → Env) (yuarelParse : Str → Option Url) (s : ServerMode) :
    ServerModeLabel → Option ServerMode
  | .listen ok =>
    if s.phase = .listening then
      if ok then some { s with phase := .accepting, exitHandler := .waiting }
      else some { s with phase := .failed }
    else none
  | .accept ok =>
    if s.phase = .accepting then
      if ok then
        some { s with
          phase := .handingOver
          args := some ⟨.client s.accepted, s.accepted⟩
          accepted := s.accepted + 1
          wrappers := s.wrappers ++ [⟨.spawned, .init⟩]
          clients := s.clients.put s.wrappers.length () }
      else some s.leaveLoop
    else none
  | .ready =>
    match s.phase, s.args with
    | .handingOver, some args =>
      if args.readySig ∈ s.raised then
        let s := { s with args := none }
        if s.shouldTerminate then some s.leaveLoop else some { s with phase := .accepting }
      else none
    | _, _ => none
  | .listenerClosed => if s.phase = .closing then some s.joinNext else none
  | .joined =>
    match s.phase with
    | .joining j =>
      if ((s.wrappers[j]?).any fun w => w.phase.hasEnded) then some s.joinNext else none
    | _ => none
  | .exitJoined =>
    if s.phase = .joiningExit ∧ s.exitHandler = .ended then
      some { s with phase := .returned, poolCleanups := s.poolCleanups + 1 }
    else none
  | .start j =>
    match s.wrappers[j]? with
    | some ⟨.spawned, connection⟩ =>
      match s.args with
      | none => some { s with dangling := true }
      | some args =>
        some { s with
          wrappers := s.wrappers.set j ⟨.serving args.client, connection⟩
          raised := args.readySig :: s.raised }
    | _ => none
  | .session j l =>
    match s.wrappers[j]? with
    | none => none
    | some w =>
      (connectionStep (env j) yuarelParse w.connection l).bind (serveClient s j w.phase)
  | .clientClosed j =>
    match s.wrappers[j]? with
    | some ⟨.closing client, connection⟩ =>
      some { s with
        wrappers := s.wrappers.set j ⟨.ended client, connection⟩, clients := s.clients.remove j }
    | _ => none
  | .exit =>
    if s.exitHandler = .waiting then
      some { s with
        shouldTerminate := true, exitHandler := .closing, closed := s.closed ++ [.server] }
    else none
  | .exitClosed =>
    if s.exitHandler = .closing then some { s with exitHandler := .ended } else none

end BuxnLs.Model
