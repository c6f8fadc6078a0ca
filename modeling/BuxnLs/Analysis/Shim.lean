/-
  The shim between a client and a session. `shim_conserves`: in both directions the shim neither
  loses, repeats nor reorders a byte while it runs, in every order of its moves. A reader of
  messages that has read a message from some bytes reads it from any longer ones
  (`recvMsgs_append`), so the session behind the shim, or the local one in `hybrid` mode, reads
  the messages that the client has written (`shim_delivers`).
-/
import BuxnLs.Analysis.Framing
import BuxnLs.Model.Shim

namespace BuxnLs.Analysis

open BuxnLs.Lib BuxnLs.Model

/-! ## The bytes -/

/-- Both directions carry what was written to them. -/
structure Forwards (s : Shim) (toStdin toSocket : Str) : Prop where
  up : s.up.Carries shimBufSize toStdin
  down : s.down.Carries shimBufSize toSocket
  /-- `buxn_ls_stdio` reads stdin by itself. -/
  direct : s.phase = .stdio ∨ s.phase = .connecting → s.up.chunk = []

theorem forwards_init : Forwards .init [] [] where
  up := Relay.carries_init shimBufSize
  down := Relay.carries_init shimBufSize
  direct := fun _ => rfl

/-- A move of a loop that feeds nothing in. -/
theorem fed_of_enabled {phase : ShimPhase} {l : RelayLabel UInt8}
    (h : stdinEnabled phase l = true ∨ stdoutEnabled phase l = true) : l.fed = [] := by
  cases l with
  | feed xs => simp [stdinEnabled, stdoutEnabled] at h
  | _ => rfl

theorem stdinEnabled_phase {phase : ShimPhase} {l : RelayLabel UInt8}
    (h : stdinEnabled phase l = true) : phase ≠ .stdio ∧ phase ≠ .connecting := by
  constructor
  · rintro rfl
    cases l <;> simp [stdinEnabled] at h
  · rintro rfl
    cases l <;> simp [stdinEnabled] at h

theorem Forwards.step {fallback : Bool} {s t : Shim} {l : ShimLabel} {toStdin toSocket : Str}
    (h : Forwards s toStdin toSocket) (hstep : shimStep fallback s l = some t) :
    Forwards t (toStdin ++ l.toStdin) (toSocket ++ l.toSocket) := by
  obtain ⟨hup, hdown, hdirect⟩ := h
  have hsame : ∀ fed : Str, fed ++ [] = fed := List.append_nil
  cases l with
  | client bytes =>
      cases hstep
      exact ⟨hup.step (l := .feed bytes) rfl, (hsame toSocket).symm ▸ hdown, hdirect⟩
  | server bytes =>
      simp only [shimStep] at hstep
      split at hstep
      · cases hstep
        exact ⟨(hsame toStdin).symm ▸ hup, hdown.step (l := .feed bytes) rfl, hdirect⟩
      · cases hstep
  | connected ok =>
      simp only [shimStep] at hstep
      split at hstep
      · rename_i hphase
        cases hstep
        exact ⟨(hsame toStdin).symm ▸ hup, (hsame toSocket).symm ▸ hdown,
          fun _ => hdirect (Or.inr hphase)⟩
      · cases hstep
  | stdin l =>
      simp only [shimStep] at hstep
      split at hstep
      · rename_i henabled
        obtain ⟨up, hrelay, rfl⟩ := Option.map_eq_some_iff.mp hstep
        have hcarries := hup.step hrelay
        rw [fed_of_enabled (Or.inl henabled)] at hcarries
        obtain ⟨hstdio, hconnecting⟩ := stdinEnabled_phase henabled
        exact ⟨hcarries, (hsame toSocket).symm ▸ hdown,
          fun hp => absurd hp (not_or.mpr ⟨hstdio, hconnecting⟩)⟩
      · cases hstep
  | stdout l =>
      simp only [shimStep] at hstep
      split at hstep
      · rename_i henabled
        obtain ⟨down, hrelay, rfl⟩ := Option.map_eq_some_iff.mp hstep
        have hcarries := hdown.step hrelay
        rw [fed_of_enabled (Or.inr henabled)] at hcarries
        exact ⟨(hsame toStdin).symm ▸ hup, hcarries, hdirect⟩
      · cases hstep
  | wake =>
      simp only [shimStep] at hstep
      split at hstep
      · cases hstep
        exact ⟨(hsame toStdin).symm ▸ hup, (hsame toSocket).symm ▸ hdown,
          fun hp => by rcases hp with hp | hp <;> cases hp⟩
      · cases hstep
  | read count =>
      simp only [shimStep] at hstep
      split at hstep
      · rename_i hc
        have hempty := hdirect (Or.inl hc.1)
        cases hstep
        refine ⟨⟨?_, hup.bounded⟩, (hsame toSocket).symm ▸ hdown, hdirect⟩
        have hcontent := hup.content
        unfold Relay.content at hcontent ⊢
        rw [hempty, List.append_nil] at hcontent ⊢
        rw [List.append_assoc, List.take_append_drop, hcontent]
        exact (hsame toStdin).symm
      · cases hstep

theorem run_forwards {fallback : Bool} {s : Shim} {ls : List ShimLabel}
    (h : run (shimStep fallback) .init ls = some s) :
    Forwards s (clientBytes ls) (serverBytes ls) := by
  have hstep : ∀ s l t past, Forwards s (clientBytes past) (serverBytes past) →
      shimStep fallback s l = some t →
      Forwards t (clientBytes (past ++ [l])) (serverBytes (past ++ [l])) := by
    intro s l t past hs hst
    have hnext := hs.step hst
    simp only [clientBytes, serverBytes, List.flatMap_append, List.flatMap_singleton]
    exact hnext
  have hall : Forwards s (clientBytes ([] ++ ls)) (serverBytes ([] ++ ls)) :=
    run_history (P := fun s past => Forwards s (clientBytes past) (serverBytes past)) hstep
      forwards_init h
  exact hall

/-- Whatever the order of the moves, the shim holds every byte that the client and the server have
    written, once and in order: it has forwarded a first part of them, holds at most one buffer,
    and has not read the others. -/
theorem shim_conserves {fallback : Bool} {s : Shim} {ls : List ShimLabel}
    (h : run (shimStep fallback) .init ls = some s) :
    s.up.output ++ s.up.chunk ++ s.up.input = clientBytes ls ∧ s.up.chunk.length ≤ 1024 ∧
      s.down.output ++ s.down.chunk ++ s.down.input = serverBytes ls ∧
      s.down.chunk.length ≤ 1024 := by
  have hs := run_forwards h
  exact ⟨hs.up.content, hs.up.bounded, hs.down.content, hs.down.bounded⟩

/-- One request, which the client writes in two parts and the shim forwards in three. -/
def forwardingRun (request : Str) : List ShimLabel :=
  [.connected true, .client (request.take 5), .stdin (.read 5), .stdin (.write 3),
    .client (request.drop 5), .stdin (.write 2), .stdin (.read 4), .stdin (.write 4),
    .stdin (.read (request.length - 9)), .stdin (.write (request.length - 9))]

theorem shim_conserves_request :
    ∃ s, run (shimStep true) .init (forwardingRun (ascii "Content-Length")) = some s ∧
      s.up.output ++ s.up.chunk ++ s.up.input =
        clientBytes (forwardingRun (ascii "Content-Length")) ∧ s.up.chunk.length ≤ 1024 ∧
      s.down.output ++ s.down.chunk ++ s.down.input =
        serverBytes (forwardingRun (ascii "Content-Length")) ∧ s.down.chunk.length ≤ 1024 := by
  have hrun : (run (shimStep true) .init (forwardingRun (ascii "Content-Length"))).isSome := by
    decide
  obtain ⟨s, hs⟩ := Option.isSome_iff_exists.mp hrun
  exact ⟨s, hs, shim_conserves hs⟩

/-! ## A reader and more input -/

theorem Accepted.append {contentLength n : Nat} {input rest z : Str} {ls : List Str}
    (h : Accepted contentLength input n rest ls z) (tail : Str) :
    Accepted contentLength (input ++ tail) n (rest ++ tail) ls z where
  block :=
    { text_eq := by simp only [h.block.text_eq, List.append_assoc, List.cons_append]
      lines := h.block.lines
      last := h.block.last }
  short := h.short
  short_last := h.short_last
  effect := h.effect
  pos := h.pos

/-- A message that has been read from some bytes is read from more. -/
theorem recvMsg_append {y : Yyjson} {lineBuf : Vector UInt8 1024} {recvBuf recvBuf' : RecvBuf}
    {input body rest : Str} (h : recvMsg y lineBuf recvBuf input = (some (body, rest), recvBuf'))
    (tail : Str) :
    recvMsg y lineBuf recvBuf (input ++ tail) = (some (body, rest ++ tail), recvBuf') := by
  unfold recvMsg at h ⊢
  cases hheader : (recvMsgHeader lineBuf input).1 with
  | none =>
      rw [hheader] at h
      exact absurd (congrArg Prod.fst h) (by simp)
  | some read =>
      obtain ⟨n, behind⟩ := read
      obtain ⟨ls, z, haccepted⟩ := (recvMsgHeader_iff lineBuf).mp hheader
      have hmore := (recvMsgHeader_iff lineBuf).mpr ⟨ls, z, haccepted.append tail⟩
      rw [hheader] at h
      rw [hmore]
      dsimp only at h ⊢
      by_cases hlong : behind.length < n
      · rw [if_pos hlong] at h
        exact absurd (congrArg Prod.fst h) (by simp)
      · rw [if_neg hlong] at h
        have hle : n ≤ behind.length := Nat.le_of_not_lt hlong
        rw [if_neg (by rw [List.length_append]; omega), List.take_append_of_le_length hle,
          List.drop_append_of_le_length hle]
        simp only [Prod.mk.injEq, Option.some.injEq] at h ⊢
        obtain ⟨⟨hbody, hrest⟩, hbuf⟩ := h
        exact ⟨⟨hbody, by rw [hrest]⟩, hbuf⟩

theorem recvMsgs_append {y : Yyjson} {lineBufs : List (Vector UInt8 1024)} {recvBuf : RecvBuf}
    {input rest : Str} {bodies : List Str}
    (h : recvMsgs y lineBufs recvBuf input = some (bodies, rest)) (tail : Str) :
    recvMsgs y lineBufs recvBuf (input ++ tail) = some (bodies, rest ++ tail) := by
  induction lineBufs generalizing recvBuf input bodies with
  | nil =>
      obtain ⟨rfl, rfl⟩ := Prod.mk.inj (Option.some.inj h)
      rfl
  | cons lineBuf lineBufs ih =>
      rw [recvMsgs] at h ⊢
      generalize hone : recvMsg y lineBuf recvBuf input = read at h
      obtain ⟨message, recvBuf'⟩ := read
      cases message with
      | none => exact absurd h (by simp)
      | some message =>
          obtain ⟨body, behind⟩ := message
          obtain ⟨⟨bodies', rest'⟩, hread, heq⟩ := Option.map_eq_some_iff.mp h
          obtain ⟨rfl, rfl⟩ := Prod.mk.inj heq
          rw [recvMsg_append hone tail]
          dsimp only
          rw [ih hread]
          rfl

/-! ## The messages -/

/-- Nothing is read from no bytes. -/
theorem recvMsg_nil (y : Yyjson) (lineBuf : Vector UInt8 1024) (recvBuf : RecvBuf) :
    recvMsg y lineBuf recvBuf [] = (none, recvBuf) := by
  have hnone : (recvMsgHeader lineBuf []).1 = none := by
    cases hheader : (recvMsgHeader lineBuf []).1 with
    | none => rfl
    | some read =>
        obtain ⟨ls, z, haccepted⟩ := (recvMsgHeader_iff lineBuf).mp hheader
        have htext := haccepted.block.text_eq
        simp at htext
  unfold recvMsg
  rw [hnone]

/-- The bytes of successive messages. -/
def frames (sends : List (Str × Str)) : Str := sends.flatMap fun send => sendMsg send.1 send.2

/-- The messages have a body, and a header that fits its buffer. -/
def Framed (sends : List (Str × Str)) : Prop :=
  ∀ send ∈ sends, 1 ≤ send.2.length ∧ (headerText send.2.length).length < 32

instance (sends : List (Str × Str)) : Decidable (Framed sends) :=
  inferInstanceAs (Decidable (∀ _ ∈ sends, _))

/-- A reader of frames reads their bodies, one after the other. -/
theorem recvMsgs_frames {y : Yyjson} {lineBufs : List (Vector UInt8 1024)} {recvBuf : RecvBuf}
    {sends : List (Str × Str)} {bodies : List Str} {rest : Str}
    (hsends : Framed sends)
    (h : recvMsgs y lineBufs recvBuf (frames sends) = some (bodies, rest)) :
    bodies = (sends.map Prod.snd).take lineBufs.length := by
  induction lineBufs generalizing recvBuf sends bodies with
  | nil =>
      obtain ⟨rfl, -⟩ := Prod.mk.inj (Option.some.inj h)
      rfl
  | cons lineBuf lineBufs ih =>
      cases sends with
      | nil =>
          rw [frames, List.flatMap_nil, recvMsgs, recvMsg_nil] at h
          exact absurd h (by simp)
      | cons send sends =>
          obtain ⟨hpos, hfits⟩ := hsends send List.mem_cons_self
          rw [frames, List.flatMap_cons, recvMsgs,
            recvMsg_sendMsg y lineBuf recvBuf hpos hfits] at h
          obtain ⟨⟨bodies', rest'⟩, hread, heq⟩ := Option.map_eq_some_iff.mp h
          obtain ⟨rfl, rfl⟩ := Prod.mk.inj heq
          rw [ih (fun s hs => hsends s (List.mem_cons_of_mem _ hs)) hread]
          rfl

/-- What a reader gets of a first part of the frames. -/
theorem recvMsgs_of_prefix {y : Yyjson} {lineBufs : List (Vector UInt8 1024)} {recvBuf : RecvBuf}
    {sends : List (Str × Str)} (hsends : Framed sends) {input rest : Str} {bodies : List Str}
    (hinput : input <+: frames sends)
    (h : recvMsgs y lineBufs recvBuf input = some (bodies, rest)) :
    bodies = (sends.map Prod.snd).take lineBufs.length := by
  obtain ⟨tail, htail⟩ := hinput
  have hall := recvMsgs_append h tail
  rw [htail] at hall
  exact recvMsgs_frames hsends hall

/-- Messages go through the shim in both directions: what the session has read are the first
    messages of the client, and what the client has read are the first ones of the server,
    wherever the two streams are cut. -/
theorem shim_delivers {fallback : Bool} {s : Shim} {ls : List ShimLabel}
    (h : run (shimStep fallback) .init ls = some s) (y : Yyjson)
    {requests replies : List (Str × Str)} (hrequests : Framed requests) (hreplies : Framed replies)
    (hclient : clientBytes ls <+: frames requests) (hserver : serverBytes ls <+: frames replies) :
    (∀ lineBufs recvBuf bodies rest,
      recvMsgs y lineBufs recvBuf s.up.output = some (bodies, rest) →
        bodies = (requests.map Prod.snd).take lineBufs.length) ∧
    (∀ lineBufs recvBuf bodies rest,
      recvMsgs y lineBufs recvBuf s.down.output = some (bodies, rest) →
        bodies = (replies.map Prod.snd).take lineBufs.length) := by
  have hs := run_forwards h
  refine ⟨fun _ _ _ _ hread => ?_, fun _ _ _ _ hread => ?_⟩
  · exact recvMsgs_of_prefix hrequests (hs.up.output_prefix.trans hclient) hread
  · exact recvMsgs_of_prefix hreplies (hs.down.output_prefix.trans hserver) hread

/-- The session reads the request that the shim has forwarded. -/
theorem shim_delivers_request :
    ∃ s, run (shimStep true) .init (forwardingRun (frames [([], ascii "{}")])) = some s ∧
      recvMsgs documentedYyjson [.replicate 1024 0] .init s.up.output =
        some ([ascii "{}"], []) ∧
      (∀ lineBufs recvBuf bodies rest,
        recvMsgs documentedYyjson lineBufs recvBuf s.up.output = some (bodies, rest) →
          bodies = ([([], ascii "{}")].map (Prod.snd : Str × Str → Str)).take lineBufs.length) ∧
      (∀ lineBufs recvBuf bodies rest,
        recvMsgs documentedYyjson lineBufs recvBuf s.down.output = some (bodies, rest) →
          bodies = (([] : List (Str × Str)).map Prod.snd).take lineBufs.length) := by
  have hout : (run (shimStep true) .init
      (forwardingRun (frames [([], ascii "{}")]))).map (fun s => s.up.output) =
        some (sendMsg [] (ascii "{}") ++ []) := by decide
  obtain ⟨s, hs, hout⟩ := Option.map_eq_some_iff.mp hout
  have hclient : clientBytes (forwardingRun (frames [([], ascii "{}")])) <+:
      frames [([], ascii "{}")] := by decide
  have hserver : serverBytes (forwardingRun (frames [([], ascii "{}")])) <+: frames [] := by decide
  refine ⟨s, hs, ?_,
    shim_delivers hs documentedYyjson (by decide) (by decide) hclient hserver⟩
  rw [hout, recvMsgs, recvMsg_sendMsg documentedYyjson _ _ (by decide) (by decide)]
  rfl

end BuxnLs.Analysis
