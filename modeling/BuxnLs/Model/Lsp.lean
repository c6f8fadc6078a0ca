/-
  The message framing of `lsp.c` and the receive buffer of `buxn_ls_recv_msg` in `ls.c`. A stream
  is the bytes that are still to come; reading fails at its end. Local buffers start with whatever
  the stack holds.
-/
import BuxnLs.Lib.Decimal
import BuxnLs.Model.Common

namespace BuxnLs.Model

open BuxnLs.Lib

/-! ## Receiving a header -/

/-- `line_buf`, and whether a store went outside of it. -/
structure LineBuf where
  bytes : Str
  overrun : Bool
deriving DecidableEq, Repr

def LineBuf.store (buf : LineBuf) (i : Nat) (ch : UInt8) : LineBuf :=
  if i < buf.bytes.length then { buf with bytes := buf.bytes.set i ch }
  else { buf with overrun := true }

/-- `bio_lsp_recv_line` with `current` at an index of the buffer: the bytes behind the line, or
    `none` for an error, and the buffer. -/
def recvLine (bufSize : Nat) : Str → Nat → LineBuf → Option Str × LineBuf
  | [], _, buf => (none, buf)
  | ch :: input, current, buf =>
    if current ≥ bufSize then (none, buf)
    else
      let buf := buf.store current ch
      if ch = cr then
        let current := current + 1
        if current ≥ bufSize then (none, buf)
        else
          match input with
          | [] => (none, buf)
          | ch :: input =>
            let buf := buf.store current ch
            if ch ≠ lf then (none, buf)
            else (some input, buf.store (current - 1) 0)
      else recvLine bufSize input (current + 1) buf

/-- `isspace`. -/
def isSpace (ch : UInt8) : Bool := ch = 0x20 || (0x09 ≤ ch && ch ≤ 0x0d)

/-- What `strtoull` leaves: its value, whether `errno` is `ERANGE`, the string at `endptr`. -/
structure Conversion where
  value : Nat
  erange : Bool
  rest : Str
deriving DecidableEq, Repr

/-- `strtoull` to the base 10. -/
def strtoull (s : Str) : Conversion :=
  let number := s.dropWhile isSpace
  let negative := number.head? = some 0x2d
  let unsigned := if negative ∨ number.head? = some 0x2b then number.drop 1 else number
  let digits := unsigned.takeWhile isDigit
  if digits = [] then ⟨0, false, s⟩
  else
    let rest := unsigned.dropWhile isDigit
    let value := digitsValue digits
    if value ≥ 2 ^ 64 then ⟨2 ^ 64 - 1, true, rest⟩
    else ⟨if negative then (2 ^ 64 - value) % 2 ^ 64 else value, false, rest⟩

def lengthField : Str := ascii "Content-Length: "

/-- The loop of `bio_lsp_recv_msg_header`: `content_length` and the bytes behind the header, or
    `none` where it returns 0. Every iteration reads bytes, so their number is enough fuel. -/
def headerLoop : Nat → Nat → LineBuf → Str → Option (Nat × Str) × LineBuf
  | 0, _, buf, _ => (none, buf)
  | fuel + 1, contentLength, buf, input =>
    match recvLine buf.bytes.length input 0 buf with
    | (none, buf) => (none, buf)
    | (some input, buf) =>
      let line := cStr buf.bytes
      if line = [] then
        (if contentLength = 0 then none else some (contentLength, input), buf)
      else if lengthField <+: line then
        -- an `unsigned long long` is no larger than a `size_t`
        let val := strtoull (line.drop lengthField.length)
        if val.erange then (none, buf)
        else if val.rest ≠ [] then (none, buf)
        else headerLoop fuel val.value buf input
      else headerLoop fuel contentLength buf input

/-- `bio_lsp_recv_msg_header`. -/
def recvMsgHeader (lineBuf : Vector UInt8 1024) (input : Str) : Option (Nat × Str) × LineBuf :=
  headerLoop (input.length + 1) 0 ⟨lineBuf.toList, false⟩ input

/-! ## Receiving a message -/

/-- What the code uses of yyjson: how much memory reading `n` bytes in place takes at most, 0 when
    that is no `size_t`. -/
structure Yyjson where
  readMaxMemoryUsage : Nat → Nat
  readMaxMemoryUsage_eq : ∀ n, readMaxMemoryUsage n =
    if 12 * n + 256 < 2 ^ 64 then 12 * n + 256 else 0

def documentedYyjson : Yyjson where
  readMaxMemoryUsage := fun n => if 12 * n + 256 < 2 ^ 64 then 12 * n + 256 else 0
  readMaxMemoryUsage_eq := fun _ => rfl

/-- `buxn_ls_recv_buf_t`; the size is a `size_t`. -/
structure RecvBuf where
  size : Nat
  size_lt : size < 2 ^ 64
deriving DecidableEq, Repr

def RecvBuf.init : RecvBuf := ⟨0, by decide⟩

/-- `required_recv_buf_size`, in `size_t` arithmetic. -/
def requiredRecvBufSize (y : Yyjson) (contentLength : Nat) : Nat :=
  (y.readMaxMemoryUsage contentLength + contentLength) % 2 ^ 64

/-- The resize step of `buxn_ls_recv_msg`. -/
def RecvBuf.resize (y : Yyjson) (recvBuf : RecvBuf) (contentLength : Nat) : RecvBuf :=
  if requiredRecvBufSize y contentLength > recvBuf.size then
    ⟨requiredRecvBufSize y contentLength, Nat.mod_lt _ (by decide)⟩
  else recvBuf

/-- `buxn_ls_recv_msg` up to the parser: the body and the bytes behind it. -/
def recvMsg (y : Yyjson) (lineBuf : Vector UInt8 1024) (recvBuf : RecvBuf) (input : Str) :
    Option (Str × Str) × RecvBuf :=
  match (recvMsgHeader lineBuf input).1 with
  | none => (none, recvBuf)
  | some (contentLength, input) =>
    let recvBuf := recvBuf.resize y contentLength
    if input.length < contentLength then (none, recvBuf)
    else (some (input.take contentLength, input.drop contentLength), recvBuf)

/-- Repeated calls of `buxn_ls_recv_msg`, each with its own `line_buf`: the bodies and the bytes
    behind the last one. -/
def recvMsgs (y : Yyjson) : List (Vector UInt8 1024) → RecvBuf → Str → Option (List Str × Str)
  | [], _, input => some ([], input)
  | lineBuf :: lineBufs, recvBuf, input =>
    match recvMsg y lineBuf recvBuf input with
    | (none, _) => none
    | (some (body, input), recvBuf) =>
      (recvMsgs y lineBufs recvBuf input).map fun read => (body :: read.1, read.2)

/-! ## Sending a message -/

/-- `snprintf` of a text into a buffer of `size` bytes: what it stores and what it returns. -/
def snprintf (size : Nat) (text : Str) : Str × Nat := (text.take (size - 1) ++ [0], text.length)

/-- The text of the header. -/
def headerText (contentLength : Nat) : Str :=
  lengthField ++ ascii (toString contentLength) ++ [cr, lf] ++ [cr, lf]

/-- The first write of `bio_lsp_send_msg`: `header_len` bytes from the `header` buffer on, behind
    which `stack` lies. -/
def headerBytes (stack : Str) (contentLength : Nat) : Str :=
  let (header, headerLen) := snprintf 32 (headerText contentLength)
  (header ++ stack).take headerLen

/-- The bytes that `bio_lsp_send_msg` writes for a body. -/
def sendMsg (stack body : Str) : Str := headerBytes stack body.length ++ body

end BuxnLs.Model
