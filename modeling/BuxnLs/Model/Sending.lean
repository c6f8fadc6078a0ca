/-
  Sends on one session. The main loop and the analyses call `buxn_ls_end_msg`, and so
  `bio_lsp_send_msg`, on the same `out_buf`. Its writes copy into the buffer what fits and
  suspend the calling coroutine whenever the buffer has to be flushed; the last step is a flush.
  Nothing keeps another coroutine from sending meanwhile. No write and no flush fails: one that
  does ends its call with a part of the frame in the buffer.
-/
import BuxnLs.Lib.Contiguous
import BuxnLs.Lib.Table
import BuxnLs.Model.Lsp

namespace BuxnLs.Model

open BuxnLs.Lib

/-- `BUXN_LS_IO_BUF_SIZE`. -/
def ioBufSize : Nat := 16384

/-- The coroutines of a session. -/
inductive Coroutine where
  | main
  | analysis (j : Nat)
deriving DecidableEq, Repr

/-- A call of `bio_lsp_send_msg` that has started and not returned. -/
structure SendCall where
  /-- The number of its message. -/
  number : Nat
  /-- The header and the body. -/
  frame : Str
  written : Nat
  /-- Suspended in a flush. -/
  flushing : Bool
deriving DecidableEq, Repr

structure Sending where
  /-- The frames of all messages so far. -/
  frames : List Str
  calls : Table Coroutine SendCall
  /-- The bytes that `out_buf` has taken, with the numbers of their messages. -/
  accepted : List (Nat × UInt8)
  /-- How many of them are not flushed. -/
  buffered : Nat
  active : Option Coroutine

def Sending.init : Sending := ⟨[], .empty, [], 0, none⟩

/-- The call of the coroutine that runs. -/
def Sending.running (s : Sending) : Option (Coroutine × SendCall) :=
  s.active.bind fun who => (s.calls.find? who).map fun call => (who, call)

/-- The moves of the coroutines.

    * `send` is the call of `bio_lsp_send_msg`, with the body and what lies behind its `header`
      buffer
    * `write` copies bytes of the message, as many as there is room for or fewer
    * `flush` suspends the call, when the buffer is full or all is written
    * `resume` takes it up again, with `left` bytes in the buffer; after the last flush it
      returns -/
inductive SendingLabel where
  | send (who : Coroutine) (stack body : Str)
  | write (count : Nat)
  | flush
  | resume (who : Coroutine) (left : Nat)

def sendingStep (s : Sending) : SendingLabel → Option Sending
  | .send who stack body =>
    if s.active = none ∧ s.calls.find? who = none then
      some { s with
        frames := s.frames ++ [sendMsg stack body]
        calls := s.calls.put who ⟨s.frames.length, sendMsg stack body, 0, false⟩
        active := some who }
    else none
  | .write count =>
    s.running.bind fun (who, call) =>
      if 0 < count ∧ count ≤ ioBufSize - s.buffered ∧ count ≤ call.frame.length - call.written then
        some { s with
          calls := s.calls.put who { call with written := call.written + count }
          accepted := s.accepted ++
            tag call.number ((call.frame.drop call.written).take count)
          buffered := s.buffered + count }
      else none
  | .flush =>
    s.running.bind fun (who, call) =>
      if s.buffered = ioBufSize ∨ call.written = call.frame.length then
        some { s with calls := s.calls.put who { call with flushing := true }, active := none }
      else none
  | .resume who left =>
    (s.calls.find? who).bind fun call =>
      if s.active = none ∧ call.flushing = true ∧ left ≤ s.buffered then
        if call.written = call.frame.length then
          some { s with calls := s.calls.remove who, buffered := left }
        else
          some { s with
            calls := s.calls.put who { call with flushing := false }
            buffered := left
            active := some who }
      else none

end BuxnLs.Model
