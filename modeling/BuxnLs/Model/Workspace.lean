/-
  `workspace.c`: the store of open documents. A message is kept as the JSON values that the
  handlers read; the getters answer `none` where those of yyjson answer null.
-/
import BuxnLs.Model.Analyzer

namespace BuxnLs.Model

open BuxnLs.Lib

/-! ## JSON values -/

/-- A JSON value. A number is a 64-bit integer; a real one is left out, since the only getter for
    numbers reads it as it reads `null`. -/
inductive Json where
  | null
  | bool (b : Bool)
  | num (n : Int)
  | str (s : Str)
  | arr (items : List Json)
  | obj (fields : List (Str × Json))

namespace Json

/-- `yyjson_obj_getn`: the first member under the key. -/
def get (json : Option Json) (key : Str) : Option Json :=
  match json with
  | some (.obj fields) => (fields.find? fun f => f.1 = key).map Prod.snd
  | _ => none

/-- `yyjson_get_str` with `yyjson_get_len`. -/
def getStr : Option Json → Option Str
  | some (.str s) => some s
  | _ => none

/-- `yyjson_get_int`, which returns an `int`. -/
def getInt : Option Json → Int
  | some (.num n) => wrapInt n
  | _ => 0

/-- The elements that `yyjson_arr_get_last` looks at. -/
def items : Option Json → List Json
  | some (.arr items) => items
  | _ => []

end Json

/-- `bio_lsp_msg_type_t`. -/
inductive MsgType where
  | request
  | result
  | error
  | notification
deriving DecidableEq, Repr

/-- `bio_lsp_in_msg_t`. -/
structure InMsg where
  type : MsgType
  method : Str
  value : Option Json

/-! ## The store -/

/-- The `root_dir` of `buxn_ls_workspace_init`. -/
def workspaceRoot (rootDir : Str) : Str :=
  if rootDir.length > 0 ∧ rootDir.getLast? ≠ some slash then rootDir ++ [slash] else rootDir

/-- The URI parses and has no path: `buxn_ls_workspace_resolve_path` then compares the root path
    with a null pointer. -/
def readsNull (E : Env) (uri : Option Str) : Bool := uri.bind E.yuarelPath = some none

/-- `buxn_ls_workspace_resolve_path`; `none` is its null result. Its callers ask `readsNull`
    first, and have no result where it holds. -/
def resolvePath (E : Env) (uri : Option Str) : Option Str :=
  match uri.bind E.yuarelPath with
  | some (some path) => if E.rootDir <+: path then some (path.drop E.rootDir.length) else none
  | _ => none

/-- `uri` of the document that a message is about. -/
def documentUri (value : Option Json) : Option Str :=
  Json.getStr (Json.get (Json.get value (ascii "textDocument")) (ascii "uri"))

/-- The path of the document that a message is about. -/
def documentPath (E : Env) (value : Option Json) : Option Str := resolvePath E (documentUri value)

/-- The `text` of a document or of a change; what is no string counts as empty. -/
def textOfJson (json : Option Json) : Str := (Json.getStr (Json.get json (ascii "text"))).getD []

/-- What a notification does to the document at its path. -/
def updateDocument (docs : Docs) (path : Str) (msg : InMsg) : Docs :=
  if msg.method = ascii "textDocument/didOpen" then
    docs.put path (textOfJson (Json.get msg.value (ascii "textDocument")))
  else if msg.method = ascii "textDocument/didChange" then
    let lastChange := (Json.items (Json.get msg.value (ascii "contentChanges"))).getLast?
    docs.put path (textOfJson lastChange)
  else if msg.method = ascii "textDocument/didClose" then docs.remove path
  else docs

/-- `buxn_ls_workspace_update`; `none` when it reads a null path. -/
def workspaceUpdate (E : Env) (docs : Docs) (msg : InMsg) : Option Docs :=
  if msg.type = .notification then
    if readsNull E (documentUri msg.value) then none
    else
      match documentPath E msg.value with
      | none => some docs
      | some path => some (updateDocument docs path msg)
  else some docs

end BuxnLs.Model
