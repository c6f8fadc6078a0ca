/-
  JSON-RPC messages: `bio_lsp_parse_msg` and the object of `bio_lsp_send_msg` in `lsp.c`, the
  table of request handlers and the replies of `ls.c`, and a call of `buxn_ls` on the bytes of its
  input. The reader of JSON texts is a parameter.
-/
import BuxnLs.Model.Handshake
import BuxnLs.Model.Lsp

namespace BuxnLs.Model

open BuxnLs.Lib

/-! ## Messages -/

/-- `bio_lsp_out_msg_t`; a null pointer is `none`. -/
structure OutMsg where
  type : MsgType
  id : Option Json
  method : Str
  value : Option Json

/-- `yyjson_mut_obj_add` of one member; a null value adds nothing. -/
def member (key : String) (value : Option Json) : List (Str × Json) :=
  value.toList.map fun value => (ascii key, value)

/-- The root that `bio_lsp_send_msg` builds. -/
def envelope (msg : OutMsg) : Json :=
  .obj ((ascii "jsonrpc", .str (ascii "2.0")) ::
    match msg.type with
    | .request =>
      member "id" msg.id ++ member "method" (some (.str msg.method)) ++
        member "params" msg.value
    | .notification =>
      member "method" (some (.str msg.method)) ++ member "params" msg.value
    | .result => member "id" msg.id ++ member "result" msg.value
    | .error => member "id" msg.id ++ member "error" msg.value)

/-- `bio_lsp_in_msg_t`. -/
structure RpcMsg where
  type : MsgType
  id : Option Json
  method : Option Str
  value : Option Json

/-- `in_msg` of `buxn_ls` before the first message. -/
def RpcMsg.init : RpcMsg := ⟨.request, none, none, none⟩

/-- `bio_lsp_parse_msg` into a variable that holds the message before; `none` is an error. -/
def parseMsg (jsonRead : Str → Option Json) (msg : RpcMsg) (body : Str) : Option RpcMsg :=
  match jsonRead body with
  | none => none
  | some root =>
    -- the method is used as a C string
    match (Json.getStr (Json.get (some root) (ascii "method"))).map cStr with
    | none =>
      match Json.get (some root) (ascii "result") with
      | some value =>
        some { msg with type := .result, method := none, value := some value }
      | none =>
        (Json.get (some root) (ascii "error")).map fun value =>
          { msg with type := .error, method := none, value := some value }
    | some method =>
      let id := Json.get (some root) (ascii "id")
      some
        { type := if id.isNone then .notification else .request
          id := id
          method := some method
          value := Json.get (some root) (ascii "params") }

/-- What the loops of `buxn_ls` use of a message. -/
def RpcMsg.toInMsg (msg : RpcMsg) : InMsg := ⟨msg.type, msg.method.getD [], msg.value⟩

/-! ## Replies -/

inductive HandlerOutcome where
  | null
  /-- The text of `initialize.json`. -/
  | capabilities
  | query (reply : Reply)
  | completion (items : Option (Option (List CompletionEntry)))
  | error (code : Int) (message : Str)

structure RpcReply where
  /-- `original_id`. -/
  id : Option Json
  outcome : HandlerOutcome

/-- The answer of `buxn_ls_handle_completion`. -/
def completionOutcome (E : Env) (s : Session) (value : Option Json) : HandlerOutcome :=
  match documentPath E value with
  | none => .null
  | some path =>
    .completion (handleCompletion E s.analyzer.current s.docs path (positionOf value))

/-- `BUXN_LS_REQUEST_HANDLERS`. -/
def requestHandlers (E : Env) (s : Session) (value : Option Json) : List (Str × HandlerOutcome) :=
  let query := fun q => HandlerOutcome.query (answer E s.analyzer.current q value)
  [(ascii "shutdown", .null),
    (ascii "textDocument/definition", query .definition),
    (ascii "textDocument/references", query .references),
    (ascii "textDocument/hover", query .hover),
    (ascii "textDocument/documentSymbol", query .documentSymbol),
    (ascii "textDocument/completion", completionOutcome E s value),
    (ascii "workspace/symbol", query .workspaceSymbol)]

def methodNotFound : HandlerOutcome := .error (-32601) (ascii "Method not found")

/-- The reply of `buxn_ls_handle_msg` to a request. -/
def replyTo (E : Env) (s : Session) (msg : RpcMsg) : RpcReply where
  id := msg.id
  outcome :=
    (((requestHandlers E s msg.value).find? fun h => h.1 = msg.method.getD []).map
      Prod.snd).getD methodNotFound

/-- The reply of `buxn_ls_initialize`. -/
def initializeReply (yuarelParse : Str → Option Url) (msg : RpcMsg) : RpcReply where
  id := msg.id
  outcome :=
    match rootDirOf yuarelParse msg.value with
    | some (some _) => .capabilities
    | _ => .error (-32602) (ascii "Root path was not provided")

/-- What a message of the client is replied to, in the state in which it is received. -/
def repliesTo (E : Env) (yuarelParse : Str → Option Url) (s : Connection) (msg : RpcMsg) :
    List RpcReply :=
  match s.waiting, msg.type with
  | .forInitialize, .request =>
    if msg.method = some (ascii "initialize") then [initializeReply yuarelParse msg] else []
  | .serving, .request => [replyTo E s.session msg]
  | _, _ => []

/-! ## A call of `buxn_ls` on bytes -/

structure Wire where
  /-- The bytes that have arrived and not been read. -/
  input : Str
  recvBuf : RecvBuf
  inMsg : RpcMsg
  connection : Connection
  /-- How often a reply has been sent. -/
  sends : Nat
  /-- The replies whose send has not failed. -/
  replies : List RpcReply

def Wire.init : Wire := ⟨[], .init, .init, .init, 0, []⟩

/-- `recv` is a call of `buxn_ls_recv_msg` on bytes that hold a message, with the `line_buf` it
    starts with. `recvFailed` is one that finds an error or the end of the stream. -/
inductive WireLabel where
  | arrive (bytes : Str)
  | recv (lineBuf : Vector UInt8 1024)
  | recvFailed
  | coroutine (l : SessionLabel)

/-- `ok` says which sends of a reply do not fail; `buxn_ls_end_msg` logs a failure, and its callers
    go on in either case. -/
def wireStep (E : Env) (y : Yyjson) (yuarelParse : Str → Option Url)
    (jsonRead : Str → Option Json) (ok : Nat → Bool) (s : Wire) : WireLabel → Option Wire
  | .arrive bytes => some { s with input := s.input ++ bytes }
  | .recv lineBuf =>
    match recvMsg y lineBuf s.recvBuf s.input with
    | (none, _) => none
    | (some (body, input), recvBuf) =>
      match parseMsg jsonRead s.inMsg body with
      | none =>
        (connectionStep E yuarelParse s.connection .recvFailed).map fun connection =>
          { s with input := input, recvBuf := recvBuf, connection := connection }
      | some msg =>
        (connectionStep E yuarelParse s.connection (.recv msg.toInMsg)).map fun connection =>
          { input := input
            recvBuf := recvBuf
            inMsg := msg
            connection := connection
            sends := s.sends + (repliesTo E yuarelParse s.connection msg).length
            replies := s.replies ++
              (repliesTo E yuarelParse s.connection msg).filter fun _ => ok s.sends }
  | .recvFailed =>
    (connectionStep E yuarelParse s.connection .recvFailed).map fun connection =>
      { s with connection := connection }
  | .coroutine l =>
    (connectionStep E yuarelParse s.connection (.coroutine l)).map fun connection =>
      { s with connection := connection }

/-- What has arrived. -/
def WireLabel.arrived : WireLabel → Str
  | .arrive bytes => bytes
  | _ => []

end BuxnLs.Model
