/-
  The messages of a client. `parse_envelope`: what `bio_lsp_send_msg` builds, `bio_lsp_parse_msg`
  reads back. So a call of `buxn_ls` on the bytes of a client goes through the same states as one
  on its messages (`wire_refines_connection`), and answers its requests one by one, in order, as
  far as the replies can be sent (`requests_answered_in_order`).
-/
import BuxnLs.Analysis.Handshake
import BuxnLs.Analysis.Shim
import BuxnLs.Model.Rpc

namespace BuxnLs.Analysis

open BuxnLs.Lib BuxnLs.Model

/-! ## One message -/

/-- A message as JSON-RPC has it: a request has an id, a response a value, and a method is a C
    string. -/
def Sendable (msg : OutMsg) : Prop :=
  match msg.type with
  | .request => msg.id.isSome ∧ 0 ∉ msg.method
  | .notification => 0 ∉ msg.method
  | .result | .error => msg.value.isSome

instance (msg : OutMsg) : Decidable (Sendable msg) := by
  unfold Sendable
  split <;> infer_instance

/-- What the receiver makes of a message, when `msg` is the one before. -/
def received (msg : RpcMsg) (sent : OutMsg) : RpcMsg :=
  match sent.type with
  | .request => ⟨.request, sent.id, some sent.method, sent.value⟩
  | .notification => ⟨.notification, none, some sent.method, sent.value⟩
  | type => { msg with type := type, method := none, value := sent.value }

/-- The members of the four envelopes are found under their own keys only. -/
theorem get_method (msg : OutMsg) :
    Json.getStr (Json.get (some (envelope msg)) (ascii "method")) =
      if msg.type = .request ∨ msg.type = .notification then some msg.method else none := by
  obtain ⟨type, id, method, value⟩ := msg
  cases type <;> cases id <;> cases value <;> rfl

theorem get_id (msg : OutMsg) :
    Json.get (some (envelope msg)) (ascii "id") =
      if msg.type = .notification then none else msg.id := by
  obtain ⟨type, id, method, value⟩ := msg
  cases type <;> cases id <;> cases value <;> rfl

theorem get_params (msg : OutMsg) :
    Json.get (some (envelope msg)) (ascii "params") =
      if msg.type = .request ∨ msg.type = .notification then msg.value else none := by
  obtain ⟨type, id, method, value⟩ := msg
  cases type <;> cases id <;> cases value <;> rfl

theorem get_result (msg : OutMsg) :
    Json.get (some (envelope msg)) (ascii "result") =
      if msg.type = .result then msg.value else none := by
  obtain ⟨type, id, method, value⟩ := msg
  cases type <;> cases id <;> cases value <;> rfl

theorem get_error (msg : OutMsg) :
    Json.get (some (envelope msg)) (ascii "error") =
      if msg.type = .error then msg.value else none := by
  obtain ⟨type, id, method, value⟩ := msg
  cases type <;> cases id <;> cases value <;> rfl

/-- What `bio_lsp_send_msg` builds, `bio_lsp_parse_msg` reads back. -/
theorem parse_envelope {jsonRead : Str → Option Json} {jsonWrite : Json → Str} {msg : OutMsg}
    (hsend : Sendable msg)
    (hjson : jsonRead (jsonWrite (envelope msg)) = some (envelope msg)) (before : RpcMsg) :
    parseMsg jsonRead before (jsonWrite (envelope msg)) = some (received before msg) := by
  have hmethod := get_method msg
  have hid := get_id msg
  have hparams := get_params msg
  have hresult := get_result msg
  have herror := get_error msg
  unfold parseMsg
  rw [hjson]
  dsimp only
  rw [hmethod]
  unfold Sendable at hsend
  unfold received
  cases htype : msg.type with
  | request =>
      rw [htype] at hsend hid hparams
      obtain ⟨id, hsome⟩ := Option.isSome_iff_exists.mp hsend.1
      rw [hid, hparams]
      simp [hsome, cStr_of_notMem hsend.2]
  | notification =>
      rw [htype] at hsend hid hparams
      rw [hid, hparams]
      simp [cStr_of_notMem hsend]
  | result =>
      rw [htype] at hsend hresult
      obtain ⟨value, hsome⟩ := Option.isSome_iff_exists.mp hsend
      rw [hresult]
      simp [hsome]
  | error =>
      rw [htype] at hsend hresult herror
      obtain ⟨value, hsome⟩ := Option.isSome_iff_exists.mp hsend
      rw [hresult, herror]
      simp [hsome]

/-! ## The bytes of a client -/

section Client

variable (jsonRead : Str → Option Json) (jsonWrite : Json → Str)

/-- The bodies of messages, with what lies behind the header buffers. -/
def encode (msgs : List (Str × OutMsg)) : List (Str × Str) :=
  msgs.map fun m => (m.1, jsonWrite (envelope m.2))

/-- The client sends JSON-RPC messages that the reader reads and whose headers fit. -/
structure ClientOK (msgs : List (Str × OutMsg)) : Prop where
  sendable : ∀ m ∈ msgs, Sendable m.2
  json : ∀ m ∈ msgs, jsonRead (jsonWrite (envelope m.2)) = some (envelope m.2)
  framed : Framed (encode jsonWrite msgs)

/-- What the loops of `buxn_ls` use of a message that was sent. -/
def inMsgOf (sent : OutMsg) : InMsg := (received .init sent).toInMsg

theorem received_toInMsg (before : RpcMsg) (sent : OutMsg) :
    (received before sent).toInMsg = inMsgOf sent := by
  unfold inMsgOf received
  cases sent.type <;> rfl

variable {jsonRead jsonWrite}

theorem frames_append (sends sends' : List (Str × Str)) :
    frames (sends ++ sends') = frames sends ++ frames sends' := List.flatMap_append

/-- A message that is read from a first part of the frames is the first one of them, and exactly
    its bytes are gone. -/
theorem recvMsg_frame {y : Yyjson} {lineBuf : Vector UInt8 1024} {recvBuf recvBuf' : RecvBuf}
    {sends : List (Str × Str)} (hsends : Framed sends) {input body rest : Str}
    (hinput : input <+: frames sends)
    (h : recvMsg y lineBuf recvBuf input = (some (body, rest), recvBuf')) :
    ∃ send more, sends = send :: more ∧ body = send.2 ∧
      input = sendMsg send.1 send.2 ++ rest := by
  obtain ⟨tail, htail⟩ := hinput
  have hall := recvMsg_append h tail
  rw [htail] at hall
  cases sends with
  | nil =>
      rw [show frames [] = [] from rfl, recvMsg_nil] at hall
      exact absurd (congrArg Prod.fst hall) (by simp)
  | cons send more =>
      obtain ⟨hpos, hfits⟩ := hsends send List.mem_cons_self
      have hframes : frames (send :: more) = sendMsg send.1 send.2 ++ frames more := rfl
      rw [hframes, recvMsg_sendMsg y lineBuf recvBuf hpos hfits] at hall
      obtain ⟨hbody, hrest⟩ := Prod.mk.inj (Option.some.inj (congrArg Prod.fst hall))
      have hcut : input ++ tail = sendMsg send.1 send.2 ++ rest ++ tail := by
        rw [htail, hframes, hrest, List.append_assoc]
      exact ⟨send, more, rfl, hbody.symm, List.append_cancel_right hcut⟩

/-! ## Requests and replies -/

/-- The methods of `BUXN_LS_REQUEST_HANDLERS`. -/
def handledMethods : List Str :=
  [ascii "shutdown", ascii "textDocument/definition", ascii "textDocument/references",
    ascii "textDocument/hover", ascii "textDocument/documentSymbol",
    ascii "textDocument/completion", ascii "workspace/symbol"]

theorem requestHandlers_methods (E : Env) (s : Session) (value : Option Json) :
    (requestHandlers E s value).map Prod.fst = handledMethods := rfl

/-- The reply belongs to the request: it has its id, is no error for a method that has a handler,
    and says so for one that has none. -/
structure Answers (request : OutMsg) (reply : RpcReply) : Prop where
  id : reply.id = request.id
  handled : request.method ∈ handledMethods → ∀ code message, reply.outcome ≠ .error code message
  unknown : request.method ∉ handledMethods →
    request.method = ascii "initialize" ∨ reply.outcome = methodNotFound

theorem requestHandlers_no_error {E : Env} {s : Session} {value : Option Json}
    {h : Str × HandlerOutcome} (hmem : h ∈ requestHandlers E s value) (code : Int) (message : Str) :
    h.2 ≠ .error code message := by
  have hcompletion : completionOutcome E s value ≠ .error code message := by
    unfold completionOutcome
    split <;> simp
  simp only [requestHandlers, List.mem_cons, List.not_mem_nil, or_false] at hmem
  rcases hmem with rfl | rfl | rfl | rfl | rfl | rfl | rfl
  case inr.inr.inr.inr.inr.inl => exact hcompletion
  all_goals simp

theorem replyTo_answers (E : Env) (s : Session) (before : RpcMsg) {sent : OutMsg}
    (hsent : sent.type = .request) : Answers sent (replyTo E s (received before sent)) := by
  have hmsg : received before sent = ⟨.request, sent.id, some sent.method, sent.value⟩ := by
    unfold received
    rw [hsent]
  rw [hmsg]
  constructor
  · rfl
  · intro hmem code message
    rw [← requestHandlers_methods E s sent.value, List.mem_map] at hmem
    obtain ⟨h, hh, hmethod⟩ := hmem
    obtain ⟨found, hfound⟩ := Option.isSome_iff_exists.mp
      (List.find?_isSome.mpr ⟨h, hh, by simpa using hmethod⟩ :
        ((requestHandlers E s sent.value).find? fun h => h.1 = sent.method).isSome)
    unfold replyTo
    simp only [Option.getD_some, hfound, Option.map_some]
    exact requestHandlers_no_error (List.mem_of_find?_eq_some hfound) code message
  · intro hno
    refine Or.inr ?_
    have hnone : ((requestHandlers E s sent.value).find? fun h => h.1 = sent.method) = none := by
      refine List.find?_eq_none.mpr fun h hh => ?_
      rw [← requestHandlers_methods E s sent.value] at hno
      have hne : h.1 ≠ sent.method := fun he => hno (he ▸ List.mem_map_of_mem hh)
      simpa using hne
    unfold replyTo
    simp only [Option.getD_some, hnone, Option.map_none, Option.getD_none]

theorem initializeReply_answers (yuarelParse : Str → Option Url) (before : RpcMsg) {sent : OutMsg}
    (hsent : sent.type = .request) (hmethod : sent.method = ascii "initialize") :
    Answers sent (initializeReply yuarelParse (received before sent)) := by
  have hno : sent.method ∉ handledMethods := by
    rw [hmethod]
    decide
  refine ⟨?_, fun hmem => absurd hmem hno, fun _ => Or.inl hmethod⟩
  unfold initializeReply received
  rw [hsent]

/-- The requests among some messages. -/
def requestsOf (msgs : List (Str × OutMsg)) : List OutMsg :=
  (msgs.map Prod.snd).filter fun m => m.type = .request

/-- Each of the requests has been replied to, in order; the outcome of one whose reply could not be
    sent is `none`. -/
structure Outcomes (ok : Nat → Bool) (requests : List OutMsg) (outcomes : List (Option RpcReply))
    (s : Wire) : Prop where
  answers : List.Forall₂ (fun request outcome => ∀ reply, outcome = some reply →
    Answers request reply) requests outcomes
  delivered : s.replies = outcomes.filterMap id
  failed : ∀ i, outcomes[i]? = some none ↔ i < outcomes.length ∧ ok i = false

/-- Every request has its outcome, but for one that ends the handshake. -/
def Answered (ok : Nat → Bool) (requests : List OutMsg) (s : Wire) : Prop :=
  (∃ outcomes, Outcomes ok requests outcomes s ∧ outcomes.length = s.sends) ∨
    s.connection.waiting = .returned ∧
      ∃ before last outcomes, requests = before ++ [last] ∧ Outcomes ok before outcomes s

theorem Outcomes.nil (ok : Nat → Bool) : Outcomes ok [] [] .init where
  answers := .nil
  delivered := rfl
  failed := by simp

/-- Only the replies matter. -/
theorem Outcomes.congr {ok : Nat → Bool} {requests : List OutMsg}
    {outcomes : List (Option RpcReply)} {s t : Wire} (h : Outcomes ok requests outcomes s)
    (hreplies : t.replies = s.replies) : Outcomes ok requests outcomes t :=
  { h with delivered := hreplies.trans h.delivered }

theorem Answered.congr {ok : Nat → Bool} {requests : List OutMsg} {s t : Wire}
    (h : Answered ok requests s) (hreplies : t.replies = s.replies) (hsends : t.sends = s.sends)
    (hwaiting : s.connection.waiting = .returned → t.connection.waiting = .returned) :
    Answered ok requests t := by
  rcases h with ⟨outcomes, hout, hlength⟩ | ⟨hend, before, last, outcomes, heq, hout⟩
  · exact Or.inl ⟨outcomes, hout.congr hreplies, hlength.trans hsends.symm⟩
  · exact Or.inr ⟨hwaiting hend, before, last, outcomes, heq, hout.congr hreplies⟩

/-- One more reply, which is sent or not. -/
theorem Outcomes.concat {ok : Nat → Bool} {requests : List OutMsg}
    {outcomes : List (Option RpcReply)} {s t : Wire} (h : Outcomes ok requests outcomes s)
    {request : OutMsg} {reply : RpcReply} (hreply : Answers request reply)
    (ht : t.replies = s.replies ++ [reply].filter fun _ => ok outcomes.length) :
    Outcomes ok (requests ++ [request])
      (outcomes ++ [if ok outcomes.length then some reply else none]) t where
  answers := by
    refine List.rel_append h.answers (.cons ?_ .nil)
    intro reply' hsome
    split at hsome
    · rwa [← Option.some.inj hsome]
    · cases hsome
  delivered := by
    rw [ht, h.delivered, List.filterMap_append]
    by_cases hok : ok outcomes.length = true
    · simp [hok]
    · simp [hok]
  failed := by
    intro i
    rw [List.length_append, List.length_singleton]
    rcases lt_trichotomy i outcomes.length with hlt | rfl | hgt
    · rw [List.getElem?_append_left hlt, h.failed i]
      have := Nat.lt_succ_of_lt hlt
      simp [hlt, this]
    · rw [List.getElem?_concat_length]
      by_cases hok : ok outcomes.length = true <;> simp [hok]
    · rw [List.getElem?_eq_none (by simp; omega)]
      have hge : ¬i < outcomes.length + 1 := by omega
      simp [hge]

/-- The messages that a run on messages receives. -/
def messagesOf (ls : List ConnectionLabel) : List InMsg :=
  ls.filterMap fun
    | .recv msg => some msg
    | _ => none

/-- `buxn_ls` has read the first `k` messages of the client. -/
structure HasRead (E : Env) (yuarelParse : Str → Option Url) (jsonWrite : Json → Str)
    (ok : Nat → Bool) (msgs : List (Str × OutMsg)) (k : Nat) (s : Wire) (arrived : Str) : Prop where
  bytes : arrived = frames (encode jsonWrite (msgs.take k)) ++ s.input
  states : ∃ ls, run (connectionStep E yuarelParse) .init ls = some s.connection ∧
    messagesOf ls = (msgs.take k).map fun m => inMsgOf m.2
  replies : Answered ok (requestsOf (msgs.take k)) s

variable {E : Env} {y : Yyjson} {yuarelParse : Str → Option Url} {ok : Nat → Bool}

theorem hasRead_init (msgs : List (Str × OutMsg)) :
    HasRead E yuarelParse jsonWrite ok msgs 0 .init [] where
  bytes := rfl
  states := ⟨[], rfl, rfl⟩
  replies := Or.inl ⟨[], .nil ok, rfl⟩

/-- A move that reads no message. -/
theorem HasRead.keep {msgs : List (Str × OutMsg)} {k : Nat} {s t : Wire} {arrived : Str}
    {l : ConnectionLabel} (h : HasRead E yuarelParse jsonWrite ok msgs k s arrived)
    (hstep : connectionStep E yuarelParse s.connection l = some t.connection)
    (hl : ∀ msg, l ≠ .recv msg) (hinput : t.input = s.input) (hreplies : t.replies = s.replies)
    (hsends : t.sends = s.sends)
    (hwaiting : s.connection.waiting = .returned → t.connection.waiting = .returned) :
    HasRead E yuarelParse jsonWrite ok msgs k t arrived where
  bytes := by rw [hinput]; exact h.bytes
  states := by
    obtain ⟨ls, hrun, hmessages⟩ := h.states
    refine ⟨ls ++ [l], by rw [run_concat, hrun, Option.bind_some, hstep], ?_⟩
    have hnone : messagesOf [l] = [] := by
      cases l with
      | recv msg => exact absurd rfl (hl msg)
      | _ => rfl
    unfold messagesOf at hmessages hnone ⊢
    rw [List.filterMap_append, hnone, List.append_nil, hmessages]
  replies := h.replies.congr hreplies hsends hwaiting

/-- A request gets one reply, or none when it ends the handshake. -/
theorem repliesTo_request {s t : Connection} {sent : OutMsg} (hsent : sent.type = .request)
    (before : RpcMsg)
    (hstep : connectionStep E yuarelParse s (.recv (inMsgOf sent)) = some t) :
    (∃ reply, Answers sent reply ∧
      repliesTo E yuarelParse s (received before sent) = [reply]) ∨
    (repliesTo E yuarelParse s (received before sent) = [] ∧ t.waiting = .returned) := by
  have htype : (inMsgOf sent).type = .request := by
    unfold inMsgOf received
    rw [hsent]
    rfl
  have htype' : (received before sent).type = .request := by
    unfold received
    rw [hsent]
  have hmethod : (received before sent).method = some sent.method := by
    unfold received
    rw [hsent]
  have hmethod' : (inMsgOf sent).method = sent.method := by
    unfold inMsgOf received
    rw [hsent]
    rfl
  unfold connectionStep at hstep
  dsimp only at hstep
  unfold repliesTo
  split at hstep
  · split at hstep
    · rename_i hwaiting
      rw [hwaiting, htype']
      dsimp only
      by_cases hinit : sent.method = ascii "initialize"
      · exact Or.inl ⟨_, initializeReply_answers yuarelParse before hsent hinit,
          if_pos (by rw [hmethod, hinit])⟩
      · refine Or.inr ⟨if_neg fun he => ?_, ?_⟩
        · rw [hmethod] at he
          exact hinit (Option.some.inj he)
        · unfold awaitInitialize at hstep
          rw [htype] at hstep
          dsimp only at hstep
          rw [if_neg (by rw [hmethod']; exact hinit)] at hstep
          rw [← Option.some.inj hstep]
          exact finish_waiting _
    · rename_i hwaiting
      rw [hwaiting, htype']
      refine Or.inr ⟨rfl, ?_⟩
      rw [← Option.some.inj hstep]
      unfold awaitInitialized
      rw [htype]
      exact finish_waiting _
    · rename_i hwaiting
      rw [hwaiting, htype']
      exact Or.inl ⟨_, replyTo_answers E s.session before hsent, rfl⟩
    · cases hstep
  · cases hstep

/-- What is no request gets no reply. -/
theorem repliesTo_other (s : Connection) {sent : OutMsg} (hsent : sent.type ≠ .request)
    (before : RpcMsg) : repliesTo E yuarelParse s (received before sent) = [] := by
  have htype : (received before sent).type ≠ .request := by
    unfold received
    cases hcase : sent.type with
    | request => exact absurd hcase hsent
    | _ => simp
  unfold repliesTo
  split
  · exact absurd ‹_› htype
  · exact absurd ‹_› htype
  · rfl

/-- What the replies to one message do to the whole. -/
theorem answered_concat {s t : Wire} {requests : List OutMsg} {sent : OutMsg}
    {outcomes : List (Option RpcReply)} (hs : Outcomes ok requests outcomes s)
    (hlength : outcomes.length = s.sends) (before : RpcMsg)
    (hsends : t.sends = s.sends +
      (repliesTo E yuarelParse s.connection (received before sent)).length)
    (hreplies : t.replies = s.replies ++
      (repliesTo E yuarelParse s.connection (received before sent)).filter fun _ => ok s.sends)
    (hstep : connectionStep E yuarelParse s.connection (.recv (inMsgOf sent)) =
      some t.connection) :
    Answered ok (requests ++ [sent].filter fun m => m.type = .request) t := by
  by_cases hsent : sent.type = .request
  · rw [List.filter_cons_of_pos (by simpa using hsent), List.filter_nil]
    rcases repliesTo_request hsent before hstep with ⟨reply, hreply, hone⟩ | ⟨hnone, hreturned⟩
    · rw [hone, ← hlength] at hreplies
      rw [hone] at hsends
      refine Or.inl ⟨_, hs.concat hreply hreplies, ?_⟩
      rw [hsends, List.length_append, hlength]
      rfl
    · rw [hnone, List.filter_nil, List.append_nil] at hreplies
      exact Or.inr ⟨hreturned, requests, sent, outcomes, rfl, hs.congr hreplies⟩
  · have hnone : repliesTo E yuarelParse s.connection (received before sent) = [] :=
      repliesTo_other s.connection hsent before
    rw [List.filter_cons_of_neg (by simpa using hsent), List.filter_nil, List.append_nil]
    rw [hnone, List.filter_nil, List.append_nil] at hreplies
    rw [hnone] at hsends
    exact Or.inl ⟨outcomes, hs.congr hreplies, hlength.trans hsends.symm⟩

/-- A message is read only while `buxn_ls` has not returned. -/
theorem recv_running {s t : Connection} {msg : InMsg}
    (h : connectionStep E yuarelParse s (.recv msg) = some t) : s.waiting ≠ .returned := by
  intro hs
  cases connectionStep_change h with
  | ignored hw _ _ => exact hw.elim (fun hw => by simp [hs] at hw) fun hw => by simp [hs] at hw
  | created hw => simp [hs] at hw
  | ready hw _ _ => simp [hs] at hw
  | served hw _ _ => simp [hs] at hw
  | exited hw _ _ => simp [hs] at hw
  | refused _ hw => exact hw.elim (fun hw => by simp [hs] at hw) fun hw => by simp [hs] at hw

/-- One more message has been read and handled. -/
theorem HasRead.next {msgs : List (Str × OutMsg)} {k : Nat} {s t : Wire} {arrived : Str}
    (h : HasRead E yuarelParse jsonWrite ok msgs k s arrived) {m : Str × OutMsg}
    (hm : msgs[k]? = some m)
    (hinput : s.input = sendMsg m.1 (jsonWrite (envelope m.2)) ++ t.input)
    (hconn : connectionStep E yuarelParse s.connection (.recv (inMsgOf m.2)) = some t.connection)
    (before : RpcMsg)
    (hsends : t.sends = s.sends +
      (repliesTo E yuarelParse s.connection (received before m.2)).length)
    (hreplies : t.replies = s.replies ++
      (repliesTo E yuarelParse s.connection (received before m.2)).filter fun _ => ok s.sends) :
    HasRead E yuarelParse jsonWrite ok msgs (k + 1) t arrived := by
  have htake : msgs.take (k + 1) = msgs.take k ++ [m] := by
    rw [List.take_add_one, hm]
    rfl
  constructor
  case bytes =>
    have hone : frames (encode jsonWrite [m]) = sendMsg m.1 (jsonWrite (envelope m.2)) :=
      List.append_nil _
    have hsplit : encode jsonWrite (msgs.take k ++ [m]) =
        encode jsonWrite (msgs.take k) ++ encode jsonWrite [m] := List.map_append
    rw [htake, hsplit, frames_append, hone, List.append_assoc, ← hinput]
    exact h.bytes
  case states =>
    obtain ⟨ls, hrun, hmessages⟩ := h.states
    refine ⟨ls ++ [.recv (inMsgOf m.2)], ?_, ?_⟩
    · rw [run_concat, hrun, Option.bind_some, hconn]
    · unfold messagesOf at hmessages ⊢
      rw [List.filterMap_append, hmessages, htake, List.map_append]
      rfl
  case replies =>
    have hrequests : requestsOf (msgs.take (k + 1)) =
        requestsOf (msgs.take k) ++ [m.2].filter fun m => m.type = .request := by
      unfold requestsOf
      rw [htake, List.map_append, List.filter_append]
      rfl
    obtain ⟨outcomes, hout, hlength⟩ :=
      h.replies.resolve_right fun hend => recv_running hconn hend.1
    rw [hrequests]
    exact answered_concat hout hlength before hsends hreplies hconn

/-- One move: a call of `buxn_ls_recv_msg` reads the next message of the client. -/
theorem HasRead.step {msgs : List (Str × OutMsg)} (hclient : ClientOK jsonRead jsonWrite msgs)
    {k : Nat} {s t : Wire} {arrived : Str} {l : WireLabel}
    (h : HasRead E yuarelParse jsonWrite ok msgs k s arrived)
    (hstep : wireStep E y yuarelParse jsonRead ok s l = some t)
    (harrived : arrived ++ l.arrived <+: frames (encode jsonWrite msgs)) :
    ∃ k, HasRead E yuarelParse jsonWrite ok msgs k t (arrived ++ l.arrived) := by
  cases l with
  | arrive bytes =>
      cases hstep
      have hbytes : arrived ++ bytes =
          frames (encode jsonWrite (msgs.take k)) ++ (s.input ++ bytes) := by
        rw [h.bytes, List.append_assoc]
      exact ⟨k, hbytes, h.states, h.replies.congr rfl rfl id⟩
  | recvFailed =>
      obtain ⟨connection, hconn, rfl⟩ := Option.map_eq_some_iff.mp hstep
      have hnone : WireLabel.recvFailed.arrived = [] := rfl
      rw [hnone, List.append_nil]
      exact ⟨k, h.keep hconn (by simp) rfl rfl rfl (connectionStep_returned hconn)⟩
  | coroutine l =>
      obtain ⟨connection, hconn, rfl⟩ := Option.map_eq_some_iff.mp hstep
      have hnone : (WireLabel.coroutine l).arrived = [] := rfl
      rw [hnone, List.append_nil]
      exact ⟨k, h.keep hconn (by simp) rfl rfl rfl (connectionStep_returned hconn)⟩
  | recv lineBuf =>
      have hnone : (WireLabel.recv lineBuf).arrived = [] := rfl
      rw [hnone, List.append_nil] at harrived ⊢
      -- the unread bytes are a first part of the frames of the messages that are not read
      have hinput : s.input <+: frames (encode jsonWrite (msgs.drop k)) := by
        have hsplit : encode jsonWrite msgs =
            encode jsonWrite (msgs.take k) ++ encode jsonWrite (msgs.drop k) := by
          unfold encode
          rw [← List.map_append, List.take_append_drop]
        rw [h.bytes, hsplit, frames_append] at harrived
        exact (List.prefix_append_right_inj _).mp harrived
      have hframed : Framed (encode jsonWrite (msgs.drop k)) := by
        intro send hsend
        obtain ⟨m, hm, rfl⟩ := List.mem_map.mp hsend
        exact hclient.framed _ (List.mem_map_of_mem (List.mem_of_mem_drop hm))
      simp only [wireStep] at hstep
      split at hstep
      · cases hstep
      · rename_i body rest recvBuf hrecv
        obtain ⟨send, more, hsends, rfl, hbytes⟩ := recvMsg_frame hframed hinput hrecv
        obtain ⟨m, rest', hdrop, rfl, -⟩ := List.map_eq_cons_iff.mp hsends
        have hget : msgs[k]? = some m := by
          rw [← List.head?_drop, hdrop, List.head?_cons]
        have hm : m ∈ msgs := List.mem_of_getElem? hget
        rw [parse_envelope (hclient.sendable m hm) (hclient.json m hm)] at hstep
        obtain ⟨connection, hconn, rfl⟩ := Option.map_eq_some_iff.mp hstep
        rw [received_toInMsg] at hconn
        exact ⟨k + 1, h.next hget hbytes hconn s.inMsg rfl rfl⟩

/-- What has arrived in a run. -/
def arrivedBytes (ls : List WireLabel) : Str := ls.flatMap WireLabel.arrived

/-- `buxn_ls` has read some first messages of the client and nothing else. -/
theorem run_hasRead {msgs : List (Str × OutMsg)} (hclient : ClientOK jsonRead jsonWrite msgs)
    {s : Wire} {ls : List WireLabel}
    (h : run (wireStep E y yuarelParse jsonRead ok) .init ls = some s)
    (harrived : arrivedBytes ls <+: frames (encode jsonWrite msgs)) :
    ∃ k, HasRead E yuarelParse jsonWrite ok msgs k s (arrivedBytes ls) := by
  have hconcat : ∀ past l, arrivedBytes (past ++ [l]) = arrivedBytes past ++ l.arrived := by
    intro past l
    unfold arrivedBytes
    rw [List.flatMap_append, List.flatMap_singleton]
  have hstart : arrivedBytes [] <+: frames (encode jsonWrite msgs) →
      ∃ k, HasRead E yuarelParse jsonWrite ok msgs k .init (arrivedBytes []) :=
    fun _ => ⟨0, hasRead_init msgs⟩
  have hall := run_history
    (P := fun s past => arrivedBytes past <+: frames (encode jsonWrite msgs) →
      ∃ k, HasRead E yuarelParse jsonWrite ok msgs k s (arrivedBytes past))
    (fun s l t past hs hst hp => by
      rw [hconcat] at hp ⊢
      obtain ⟨k, hk⟩ := hs ((List.prefix_append _ _).trans hp)
      exact hk.step hclient hst hp)
    hstart h
  exact hall harrived

/-- A call of `buxn_ls` on the bytes of a client is one on its messages: wherever the bytes are cut
    and whatever runs in between, the state is one that the first messages of the client lead to,
    received one by one. -/
theorem wire_refines_connection {msgs : List (Str × OutMsg)}
    (hclient : ClientOK jsonRead jsonWrite msgs) {s : Wire} {ls : List WireLabel}
    (h : run (wireStep E y yuarelParse jsonRead ok) .init ls = some s)
    (harrived : arrivedBytes ls <+: frames (encode jsonWrite msgs)) :
    ∃ k ls', run (connectionStep E yuarelParse) .init ls' = some s.connection ∧
      messagesOf ls' = (msgs.take k).map (fun m => inMsgOf m.2) ∧
      arrivedBytes ls = frames (encode jsonWrite (msgs.take k)) ++ s.input := by
  obtain ⟨k, hk⟩ := run_hasRead hclient h harrived
  obtain ⟨ls', hrun, hmessages⟩ := hk.states
  exact ⟨k, ls', hrun, hmessages, hk.bytes⟩

/-- The request of a client that starts a session. -/
def initializeRequest : OutMsg where
  type := .request
  id := some (.num 1)
  method := ascii "initialize"
  value := some (.obj [(ascii "rootUri", .str (ascii "file:///w/"))])

def initializeText : Str := ascii
  ("\x7b\"jsonrpc\":\"2.0\",\"id\":1,\"method\":\"initialize\"," ++
    "\"params\":\x7b\"rootUri\":\"file:///w/\"\x7d\x7d")

/-- The JSON reader on that text. -/
def initializeRead (text : Str) : Option Json :=
  if text = initializeText then some (envelope initializeRequest) else none

/-- The JSON writer on that request. -/
def initializeWrite (_ : Json) : Str := initializeText

def initializeMsgs : List (Str × OutMsg) := [([], initializeRequest)]

def initializeWire : List WireLabel :=
  [.arrive (frames [([], initializeText)]), .recv (.replicate 1024 0)]

theorem initialize_clientOK :
    ClientOK initializeRead initializeWrite initializeMsgs where
  sendable := by decide
  json := by
    intro m hm
    obtain rfl := List.mem_singleton.mp hm
    exact if_pos rfl
  framed := by decide

/-- The bytes of the request arrive, and it is read. -/
theorem initialize_runs (ok : Nat → Bool) :
    ∃ s, run (wireStep asciiEnv documentedYyjson asciiUrl initializeRead ok) .init
        initializeWire = some s ∧
      s.replies = [initializeReply asciiUrl (received .init initializeRequest)].filter
        fun _ => ok 0 := by
  have hmem : ([], initializeRequest) ∈ initializeMsgs := List.mem_singleton.mpr rfl
  have hsend : ([], initializeText) ∈ encode initializeWrite initializeMsgs :=
    List.mem_map_of_mem hmem
  obtain ⟨hpos, hfits⟩ := initialize_clientOK.framed _ hsend
  have hrecv := recvMsg_sendMsg documentedYyjson (.replicate 1024 0) .init hpos hfits [] []
  have hparse : parseMsg initializeRead .init (initializeWrite (envelope initializeRequest)) =
      some (received .init initializeRequest) :=
    parse_envelope (initialize_clientOK.sendable _ hmem) (initialize_clientOK.json _ hmem) .init
  rw [initializeWrite] at hparse
  have hbytes : [] ++ frames [([], initializeText)] = sendMsg [] initializeText ++ [] := by
    simp only [frames, List.flatMap_singleton, List.nil_append, List.append_nil]
  have hread : ∃ s, wireStep asciiEnv documentedYyjson asciiUrl initializeRead ok
      { Wire.init with input := [] ++ frames [([], initializeText)] }
      (.recv (.replicate 1024 0)) = some s ∧
      s.replies = [initializeReply asciiUrl (received .init initializeRequest)].filter
        fun _ => ok 0 := by
    simp only [wireStep, hbytes, Wire.init, hrecv, hparse]
    exact ⟨_, rfl, rfl⟩
  obtain ⟨s, hs, hreplies⟩ := hread
  refine ⟨s, ?_, hreplies⟩
  rw [initializeWire, run_cons, wireStep, Option.bind_some, run_cons]
  exact congrArg (Option.bind · some) hs

theorem initialize_arrived :
    arrivedBytes initializeWire <+: frames (encode initializeWrite initializeMsgs) := by
  simp [arrivedBytes, initializeWire, WireLabel.arrived, encode, initializeMsgs, initializeWrite]

/-- The request that starts a session. -/
theorem initialize_refines :
    ∃ s, run (wireStep asciiEnv documentedYyjson asciiUrl initializeRead fun _ => true) .init
        initializeWire = some s ∧
      ∃ k ls', run (connectionStep asciiEnv asciiUrl) .init ls' = some s.connection ∧
        messagesOf ls' = (initializeMsgs.take k).map (fun m => inMsgOf m.2) ∧
        arrivedBytes initializeWire =
          frames (encode initializeWrite (initializeMsgs.take k)) ++ s.input := by
  obtain ⟨s, hs, -⟩ := initialize_runs fun _ => true
  exact ⟨s, hs, wire_refines_connection initialize_clientOK hs initialize_arrived⟩

end Client

end BuxnLs.Analysis
