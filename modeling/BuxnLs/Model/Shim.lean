/-
  `shim.c`: two coroutines forward stdin to the socket and the socket to stdout. The main
  coroutine waits until one of them ends, closes the socket and returns. When the connection
  fails, `hybrid` mode serves the client itself, by `buxn_ls_stdio`.
-/
import BuxnLs.Lib.Relay
import BuxnLs.Model.Common

namespace BuxnLs.Model

open BuxnLs.Lib

/-- `BUF_SIZE`. -/
def shimBufSize : Nat := 1024

/-- Where `shim_entry` is. -/
inductive ShimPhase where
  /-- In `bio_net_connect`. -/
  | connecting
  /-- It waits for `exit_sig`. -/
  | forwarding
  /-- In `buxn_ls_stdio`. -/
  | stdio
  | returned (exitCode : Nat)
deriving DecidableEq, Repr

structure Shim where
  phase : ShimPhase
  /-- From `BIO_STDIN` to the session that serves the client: what comes out is what that session
      has been given. -/
  up : Relay UInt8
  /-- From the socket to `BIO_STDOUT`. -/
  down : Relay UInt8

def Shim.init : Shim := ⟨.connecting, .init, .init⟩

/-- The moves of the shim and of what it is connected to.

    * `client` and `server` write to stdin and to the socket
    * `connected` is the result of `bio_net_connect`
    * `stdin` and `stdout` are `shim_stdin` and `shim_stdout`, `wake` is the end of the wait
    * `read` is a read of the session in `buxn_ls_stdio` -/
inductive ShimLabel where
  | client (bytes : Str)
  | server (bytes : Str)
  | connected (ok : Bool)
  | stdin (l : RelayLabel UInt8)
  | stdout (l : RelayLabel UInt8)
  | wake
  | read (count : Nat)

/-- `shim_stdin` in this phase. Behind `bio_net_close` its sends fail. -/
def stdinEnabled : ShimPhase → RelayLabel UInt8 → Bool
  | _, .feed _ => false
  | .forwarding, _ => true
  | .returned 0, .write _ => false
  | .returned 0, _ => true
  | _, _ => false

/-- `shim_stdout` in this phase. Behind `bio_net_close` it receives nothing. -/
def stdoutEnabled : ShimPhase → RelayLabel UInt8 → Bool
  | _, .feed _ => false
  | .forwarding, _ => true
  | .returned 0, .read _ => false
  | .returned 0, _ => true
  | _, _ => false

def shimStep (fallback : Bool) (s : Shim) : ShimLabel → Option Shim
  | .client bytes => (relayStep shimBufSize s.up (.feed bytes)).map fun up => { s with up := up }
  | .server bytes =>
    if s.phase = .forwarding then
      (relayStep shimBufSize s.down (.feed bytes)).map fun down => { s with down := down }
    else none
  | .connected ok =>
    if s.phase = .connecting then
      some { s with phase := if ok then .forwarding else if fallback then .stdio else .returned 1 }
    else none
  | .stdin l =>
    if stdinEnabled s.phase l then
      (relayStep shimBufSize s.up l).map fun up => { s with up := up }
    else none
  | .stdout l =>
    if stdoutEnabled s.phase l then
      (relayStep shimBufSize s.down l).map fun down => { s with down := down }
    else none
  | .wake =>
    if s.phase = .forwarding ∧ ¬ (s.up.running ∧ s.down.running) then
      some { s with phase := .returned 0 }
    else none
  | .read count =>
    if s.phase = .stdio ∧ count ≤ s.up.input.length then
      some { s with up := { s.up with
        input := s.up.input.drop count, output := s.up.output ++ s.up.input.take count } }
    else none

/-- What the client writes to stdin in a move. -/
def ShimLabel.toStdin : ShimLabel → Str
  | .client bytes => bytes
  | _ => []

/-- What the server writes to the socket in a move. -/
def ShimLabel.toSocket : ShimLabel → Str
  | .server bytes => bytes
  | _ => []

/-- What the client has written to stdin. -/
def clientBytes (ls : List ShimLabel) : Str := ls.flatMap ShimLabel.toStdin

/-- What the server has written to the socket. -/
def serverBytes (ls : List ShimLabel) : Str := ls.flatMap ShimLabel.toSocket

end BuxnLs.Model
