/-
  Interleaved sends. What `out_buf` takes is contiguous, whole frames and a part of one more, as
  long as each write finds no other message partly written; nothing in the code sees to that.
  The invariant ties the progress of each call to what `out_buf` has taken of its message, and
  says that a message without a call is in it whole.
-/
import BuxnLs.Lib.Run
import BuxnLs.Model.Sending

namespace BuxnLs.Analysis

open BuxnLs.Lib BuxnLs.Model

/-- The frame with a number. -/
def message (s : Sending) (m : Nat) : Str := (s.frames[m]?).getD []

/-- What the calls in progress and the messages without a call have written. -/
structure SendsOK (s : Sending) : Prop where
  frame : ∀ who call, s.calls.find? who = some call → s.frames[call.number]? = some call.frame
  progress : ∀ who call, s.calls.find? who = some call →
    call.written = written call.number s.accepted
  bounded : ∀ who call, s.calls.find? who = some call → call.written ≤ call.frame.length
  distinct : ∀ who who' call call', s.calls.find? who = some call →
    s.calls.find? who' = some call' → call.number = call'.number → who = who'
  finished : ∀ m, (∀ who call, s.calls.find? who = some call → call.number ≠ m) →
    written m s.accepted = (message s m).length

theorem sendsOK_init : SendsOK .init where
  frame := fun _ _ h => by cases h
  progress := fun _ _ h => by cases h
  bounded := fun _ _ h => by cases h
  distinct := fun _ _ _ _ h => by cases h
  finished := fun _ _ => rfl

theorem SendsOK.message_eq {s : Sending} (h : SendsOK s) {who : Coroutine} {call : SendCall}
    (hcall : s.calls.find? who = some call) : message s call.number = call.frame := by
  unfold message
  rw [h.frame who call hcall]
  rfl

/-- The number of the next message is new. -/
theorem SendsOK.number_lt {s : Sending} (h : SendsOK s) {who : Coroutine} {call : SendCall}
    (hcall : s.calls.find? who = some call) : call.number < s.frames.length :=
  (List.getElem?_eq_some_iff.mp (h.frame who call hcall)).1

/-! ## The steps -/

/-- What a step does. -/
inductive SendingChange (s : Sending) : SendingLabel → Sending → Prop where
  | send {who stack body} : s.calls.find? who = none →
      SendingChange s (.send who stack body)
        { s with
            frames := s.frames ++ [sendMsg stack body]
            calls := s.calls.put who ⟨s.frames.length, sendMsg stack body, 0, false⟩
            active := some who }
  | write {who call count} : s.running = some (who, call) → s.calls.find? who = some call →
      0 < count → count ≤ call.frame.length - call.written →
      SendingChange s (.write count)
        { s with
            calls := s.calls.put who { call with written := call.written + count }
            accepted := s.accepted ++ tag call.number ((call.frame.drop call.written).take count)
            buffered := s.buffered + count }
  | wait {l who call buffered active} (flushing : Bool) : (∀ count, l ≠ .write count) →
      s.calls.find? who = some call →
      SendingChange s l
        { s with
            calls := s.calls.put who { call with flushing := flushing }
            buffered := buffered
            active := active }
  | returned {who call left} : s.calls.find? who = some call →
      call.written = call.frame.length →
      SendingChange s (.resume who left)
        { s with calls := s.calls.remove who, buffered := left }

theorem running_eq_some {s : Sending} {who : Coroutine} {call : SendCall}
    (h : s.running = some (who, call)) : s.calls.find? who = some call := by
  unfold Sending.running at h
  obtain ⟨who', -, h⟩ := Option.bind_eq_some_iff.mp h
  obtain ⟨call', hcall, heq⟩ := Option.map_eq_some_iff.mp h
  obtain ⟨rfl, rfl⟩ := Prod.mk.inj heq
  exact hcall

theorem sendingStep_change {s t : Sending} {l : SendingLabel} (h : sendingStep s l = some t) :
    SendingChange s l t := by
  cases l with
  | send who stack body =>
      unfold sendingStep at h
      dsimp only at h
      split at h
      · rename_i hs
        exact Option.some.inj h ▸ .send hs.2
      · exact absurd h (by simp)
  | write count =>
      obtain ⟨⟨who, call⟩, hrun, h⟩ := Option.bind_eq_some_iff.mp h
      dsimp only at h
      split at h
      · rename_i hs
        exact Option.some.inj h ▸ .write hrun (running_eq_some hrun) hs.1 hs.2.2
      · exact absurd h (by simp)
  | flush =>
      obtain ⟨⟨who, call⟩, hrun, h⟩ := Option.bind_eq_some_iff.mp h
      dsimp only at h
      split at h
      · exact Option.some.inj h ▸ .wait true (fun _ => by simp) (running_eq_some hrun)
      · exact absurd h (by simp)
  | resume who left =>
      obtain ⟨call, hcall, h⟩ := Option.bind_eq_some_iff.mp h
      split at h
      · split at h
        · rename_i hfull
          exact Option.some.inj h ▸ .returned hcall hfull
        · exact Option.some.inj h ▸ .wait false (fun _ => by simp) hcall
      · exact absurd h (by simp)

/-! ## The invariant -/

/-- A new frame leaves the others as they are. -/
theorem message_append (s : Sending) (frame : Str) {calls : Table Coroutine SendCall}
    {active : Option Coroutine} {m : Nat} (hm : m ≠ s.frames.length) :
    message { s with frames := s.frames ++ [frame], calls := calls, active := active } m =
      message s m := by
  unfold message
  by_cases hlt : m < s.frames.length
  · rw [List.getElem?_append_left hlt]
  · have hle : (s.frames ++ [frame]).length ≤ m := by
      rw [List.length_append, List.length_singleton]
      omega
    rw [List.getElem?_eq_none hle, List.getElem?_eq_none (Nat.not_lt.mp hlt)]

/-- A call gets on with its message, and no other message with its. -/
theorem SendsOK.update {s t : Sending} (h : SendsOK s) {who : Coroutine} {call call' : SendCall}
    (hcall : s.calls.find? who = some call) (hframes : t.frames = s.frames)
    (hcalls : t.calls = s.calls.put who call') (hnumber : call'.number = call.number)
    (hframe : call'.frame = call.frame) (hle : call'.written ≤ call.frame.length)
    (hself : call'.written = written call.number t.accepted)
    (hother : ∀ m, m ≠ call.number → written m t.accepted = written m s.accepted) :
    SendsOK t := by
  have hfind : ∀ {q d}, t.calls.find? q = some d →
      who = q ∧ call' = d ∨ who ≠ q ∧ s.calls.find? q = some d := by
    intro q d hd
    rw [hcalls] at hd
    exact Table.find?_put_eq_some.mp hd
  refine ⟨?_, ?_, ?_, ?_, ?_⟩
  · intro q d hd
    rw [hframes]
    rcases hfind hd with ⟨rfl, rfl⟩ | ⟨-, hd⟩
    · rw [hnumber, hframe]
      exact h.frame who call hcall
    · exact h.frame q d hd
  · intro q d hd
    rcases hfind hd with ⟨rfl, rfl⟩ | ⟨hne, hd⟩
    · rw [hnumber]
      exact hself
    · rw [hother _ fun he => hne (h.distinct _ _ _ _ hcall hd he.symm)]
      exact h.progress q d hd
  · intro q d hd
    rcases hfind hd with ⟨rfl, rfl⟩ | ⟨-, hd⟩
    · rw [hframe]
      exact hle
    · exact h.bounded q d hd
  · intro q q' d d' hd hd' he
    rcases hfind hd with ⟨rfl, rfl⟩ | ⟨-, hd⟩
    · rcases hfind hd' with ⟨rfl, -⟩ | ⟨-, hd'⟩
      · rfl
      · exact h.distinct _ _ _ _ hcall hd' (hnumber.symm.trans he)
    · rcases hfind hd' with ⟨rfl, rfl⟩ | ⟨-, hd'⟩
      · exact h.distinct _ _ _ _ hd hcall (he.trans hnumber)
      · exact h.distinct _ _ _ _ hd hd' he
  · intro m hm
    have hne : m ≠ call.number := by
      have hwho : t.calls.find? who = some call' := by rw [hcalls, Table.find?_put_self]
      exact fun he => hm who call' hwho (hnumber.trans he.symm)
    have hold : ∀ q d, s.calls.find? q = some d → d.number ≠ m := by
      intro q d hd
      by_cases hq : who = q
      · rw [← hq, hcall] at hd
        exact Option.some.inj hd ▸ Ne.symm hne
      · exact hm q d (by rw [hcalls, Table.find?_put_ne _ _ hq]; exact hd)
    rw [hother m hne, h.finished m hold]
    unfold message
    rw [hframes]

theorem written_next {call : SendCall} {accepted : List (Nat × UInt8)} {count : Nat}
    (hprogress : call.written = written call.number accepted)
    (hcount : count ≤ call.frame.length - call.written) :
    call.written + count = written call.number
      (accepted ++ tag call.number ((call.frame.drop call.written).take count)) := by
  rw [written_append, written_tag_self, List.length_take, List.length_drop, ← hprogress]
  omega

theorem SendingChange.sendsOK {s t : Sending} {l : SendingLabel} (h : SendingChange s l t)
    (hs : SendsOK s) : SendsOK t := by
  cases h with
  | @send who stack body hnone =>
      have hnew : written s.frames.length s.accepted = 0 := by
        have hfinished := hs.finished s.frames.length fun q d hd => by
          have hlt := hs.number_lt hd
          omega
        rw [hfinished, message, List.getElem?_eq_none (Nat.le_refl _)]
        rfl
      have hfind : ∀ {q d}, (s.calls.put who ⟨s.frames.length, sendMsg stack body, 0, false⟩).find?
          q = some d → who = q ∧ ⟨s.frames.length, sendMsg stack body, 0, false⟩ = d ∨
            who ≠ q ∧ s.calls.find? q = some d :=
        fun hd => Table.find?_put_eq_some.mp hd
      refine ⟨?_, ?_, ?_, ?_, ?_⟩
      · intro q d hd
        rcases hfind hd with ⟨rfl, rfl⟩ | ⟨-, hd⟩
        · exact List.getElem?_concat_length
        · exact (List.getElem?_append_left (hs.number_lt hd)).trans (hs.frame q d hd)
      · intro q d hd
        rcases hfind hd with ⟨rfl, rfl⟩ | ⟨-, hd⟩
        · exact hnew.symm
        · exact hs.progress q d hd
      · intro q d hd
        rcases hfind hd with ⟨rfl, rfl⟩ | ⟨-, hd⟩
        · exact Nat.zero_le _
        · exact hs.bounded q d hd
      · intro q q' d d' hd hd' he
        rcases hfind hd with ⟨rfl, rfl⟩ | ⟨-, hd⟩
        · rcases hfind hd' with ⟨rfl, -⟩ | ⟨-, hd'⟩
          · rfl
          · exact absurd he (Nat.ne_of_gt (hs.number_lt hd'))
        · rcases hfind hd' with ⟨rfl, rfl⟩ | ⟨-, hd'⟩
          · exact absurd he (Nat.ne_of_lt (hs.number_lt hd))
          · exact hs.distinct _ _ _ _ hd hd' he
      · intro m hm
        have hne : s.frames.length ≠ m := hm who _ (Table.find?_put_self _ _ _)
        have hold : ∀ q d, s.calls.find? q = some d → d.number ≠ m := by
          intro q d hd
          by_cases hq : who = q
          · rw [← hq, hnone] at hd
            exact absurd hd (by simp)
          · exact hm q d ((Table.find?_put_ne _ _ hq).trans hd)
        rw [hs.finished m hold, message_append s _ (Ne.symm hne)]
  | write _ hcall _ hcount =>
      refine hs.update hcall rfl rfl rfl rfl ?_ ?_ ?_
      · have hle := hs.bounded _ _ hcall
        dsimp only
        omega
      · exact written_next (hs.progress _ _ hcall) hcount
      · intro m hm
        dsimp only
        rw [written_append, written_tag_ne (Ne.symm hm), Nat.add_zero]
  | @wait _ who call _ _ _ _ hcall =>
      exact hs.update hcall rfl rfl rfl rfl (hs.bounded who call hcall)
        (hs.progress who call hcall) fun _ _ => rfl
  | @returned who call _ hcall hfull =>
      have hfind : ∀ {q d}, (s.calls.remove who).find? q = some d →
          who ≠ q ∧ s.calls.find? q = some d :=
        fun hd => Table.find?_remove_eq_some.mp hd
      refine ⟨fun q d hd => hs.frame q d (hfind hd).2, fun q d hd => hs.progress q d (hfind hd).2,
        fun q d hd => hs.bounded q d (hfind hd).2, fun q q' d d' hd hd' =>
          hs.distinct q q' d d' (hfind hd).2 (hfind hd').2, fun m hm => ?_⟩
      by_cases hnumber : call.number = m
      · -- the call has written all of its message
        have hmessage := hs.message_eq hcall
        show written m s.accepted = (message s m).length
        rw [← hnumber, hmessage, ← hs.progress who call hcall, hfull]
      · refine hs.finished m fun q d hd => ?_
        by_cases hq : who = q
        · rw [← hq, hcall] at hd
          exact Option.some.inj hd ▸ hnumber
        · exact hm q d (Table.find?_remove_eq_some.mpr ⟨hq, hd⟩)

/-! ## Whole frames -/

/-- `out_buf` has taken whole frames, one after the other, and a part of one more. -/
def NotInterleaved (s : Sending) : Prop := Contiguous (message s) s.accepted

/-- A write finds no message of another call partly written. -/
def WritesAlone (s : Sending) : SendingLabel → Prop
  | .write _ => ∀ who call, s.running = some (who, call) → ∀ other call', other ≠ who →
      s.calls.find? other = some call' →
      call'.written = 0 ∨ call'.written = call'.frame.length
  | _ => True

instance (s : Sending) (l : SendingLabel) : Decidable (WritesAlone s l) :=
  match l with
  | .write _ => decidable_of_iff
      (∀ r ∈ s.running.toList, ∀ e ∈ s.calls.entries, e.1 ≠ r.1 →
        e.2.written = 0 ∨ e.2.written = e.2.frame.length)
      ⟨fun h who call hrun other call' hne hcall =>
          h (who, call) (by rw [hrun]; exact List.mem_singleton_self _) (other, call')
            ((s.calls.mem_entries_iff other call').mpr hcall) hne,
        fun h r hr e he hne => h r.1 r.2 (Option.mem_toList.mp hr) e.1 e.2 hne
          ((s.calls.mem_entries_iff e.1 e.2).mp he)⟩
  | .send _ _ _ | .flush | .resume _ _ => isTrue trivial

/-- The condition, in terms of what `out_buf` has taken. -/
theorem SendsOK.writesAlone_iff {s : Sending} (h : SendsOK s) {who : Coroutine} {call : SendCall}
    {count : Nat} (hrun : s.running = some (who, call)) :
    WritesAlone s (.write count) ↔ ∀ m, m ≠ call.number →
      written m s.accepted = 0 ∨ written m s.accepted = (message s m).length := by
  have hcall := running_eq_some hrun
  constructor
  · intro hC m hm
    by_cases hsome : ∃ other call', s.calls.find? other = some call' ∧ call'.number = m
    · obtain ⟨other, call', hcall', rfl⟩ := hsome
      have hne : other ≠ who := by
        rintro rfl
        rw [hcall] at hcall'
        exact hm (congrArg SendCall.number (Option.some.inj hcall')).symm
      rw [← h.progress other call' hcall', h.message_eq hcall']
      exact hC who call hrun other call' hne hcall'
    · refine Or.inr (h.finished m fun other call' hcall' hnumber => ?_)
      exact hsome ⟨other, call', hcall', hnumber⟩
  · intro hall who' call₀ hrun' other call' hne hcall'
    obtain ⟨rfl, rfl⟩ := Prod.mk.inj (Option.some.inj (hrun.symm.trans hrun'))
    have hnumber : call'.number ≠ call.number := fun he =>
      hne (h.distinct other who call' call hcall' hcall he)
    have hwritten := hall call'.number hnumber
    rwa [← h.progress other call' hcall', h.message_eq hcall'] at hwritten

theorem SendingChange.notInterleaved_iff {s t : Sending} {l : SendingLabel}
    (h : SendingChange s l t) (hs : SendsOK s) (hP : NotInterleaved s) :
    NotInterleaved t ↔ WritesAlone s l := by
  cases h with
  | @send who stack body hnone =>
      refine ⟨fun _ => trivial, fun _ => hP.congr fun m hm => ?_⟩
      refine message_append s _ fun he => hm ?_
      rw [he, message, List.getElem?_eq_none (Nat.le_refl _)]
      rfl
  | @write who call count hrun hcall hpos hcount =>
      have hframe := hs.message_eq hcall
      have hle := hs.bounded who call hcall
      have hne : (call.frame.drop call.written).take count ≠ [] := by
        intro hnil
        have hlen := congrArg List.length hnil
        rw [List.length_take, List.length_drop, List.length_nil] at hlen
        omega
      have hnext : (message s call.number).take (written call.number s.accepted) ++
          (call.frame.drop call.written).take count <+: message s call.number := by
        rw [hframe, ← hs.progress who call hcall, ← List.take_add]
        exact List.take_prefix _ _
      rw [hs.writesAlone_iff hrun]
      exact contiguous_append_iff hP hne hnext
  | @wait l _ _ _ _ _ hl hcall =>
      have hC : WritesAlone s l := by
        cases l with
        | write count => exact absurd rfl (hl count)
        | send _ _ _ | flush | resume _ _ => trivial
      exact ⟨fun _ => hC, fun _ => hP⟩
  | returned _ _ => exact ⟨fun _ => trivial, fun _ => hP⟩

/-- In every state of a run `out_buf` has taken whole frames and a part of one more, exactly when
    no write finds another message partly written. -/
theorem not_interleaved_iff {ls : List SendingLabel} (hrun : (run sendingStep .init ls).isSome) :
    Always sendingStep NotInterleaved .init ls ↔ Meets sendingStep WritesAlone .init ls :=
  always_iff_meets_of_inv (I := SendsOK) (fun _ _ _ hs h => (sendingStep_change h).sendsOK hs)
    (fun _ _ _ hs hP h => (sendingStep_change h).notInterleaved_iff hs hP) sendsOK_init
    (contiguous_nil _) hrun

/-- The bytes are those of whole frames and of the beginning of one more. -/
theorem NotInterleaved.bytes {s : Sending} (h : NotInterleaved s) :
    ∃ (order : List Nat) (m : Nat) (part : Str), order.Nodup ∧ part <+: message s m ∧
      s.accepted.map Prod.snd = order.flatMap (message s) ++ part := by
  obtain ⟨order, m, part, hnd, -, -, hpart, haccepted⟩ := h
  refine ⟨order, m, part, hnd, hpart, ?_⟩
  have hbytes : ∀ k xs, (tag k xs).map Prod.snd = (xs : Str) := fun k xs => by
    rw [tag, List.map_map]
    exact List.map_id xs
  rw [haccepted, List.map_append, hbytes, whole, List.map_flatMap]
  congr 1
  exact List.flatMap_congr fun k _ => hbytes k _

/-- A reply, and a notification that an analysis writes while the reply waits for its flush. -/
def replyThenNotification : List SendingLabel :=
  [.send .main [] (ascii "{}"), .write 21, .write 2, .flush,
    .send (.analysis 0) [] (ascii "[0]"), .write 24, .flush, .resume .main 24,
    .resume (.analysis 0) 0]

/-- Their frames stand behind each other. -/
theorem not_interleaved_reply :
    (run sendingStep .init replyThenNotification).map (fun s => s.accepted.map Prod.snd) =
        some (sendMsg [] (ascii "{}") ++ sendMsg [] (ascii "[0]")) ∧
      Always sendingStep NotInterleaved .init replyThenNotification :=
  ⟨by decide, (not_interleaved_iff (by decide)).mpr (by decide)⟩

/-! ## A reply that fills the buffer -/

/-- The reply `body` fills the buffer and suspends the main loop; the notification `body'` waits
    for the buffer, too, and is resumed first. -/
def overtaken (body body' : Str) : List SendingLabel :=
  [.send .main [] body, .write ioBufSize, .flush, .send (.analysis 0) [] body', .flush,
    .resume (.analysis 0) 0, .write 1]

theorem run_overtaken {body body' : Str} (hlong : ioBufSize < (sendMsg [] body).length)
    (hpos : 0 < (sendMsg [] body').length) :
    (run sendingStep .init (overtaken body body')).map (fun s => (s.frames, s.accepted)) =
      some ([sendMsg [] body, sendMsg [] body'],
        tag 0 ((sendMsg [] body).take ioBufSize) ++ tag 1 ((sendMsg [] body').take 1)) := by
  generalize hframe : sendMsg [] body = frame at *
  generalize hframe' : sendMsg [] body' = frame' at *
  have hroom : 0 < ioBufSize ∧ 1 ≤ ioBufSize := by decide
  have hfull : ioBufSize ≤ frame.length := Nat.le_of_lt hlong
  have hone : 1 ≤ frame'.length := hpos
  have hne : ¬ 0 = frame'.length := Nat.ne_of_lt hpos
  simp [overtaken, run_cons, sendingStep, Sending.running, Sending.init, Table.find?_put, hframe,
    hframe', hroom, hfull, hone, hne]

/-- A reply of 16384 bytes, and a notification whose first byte lands in its frame. -/
theorem reply_overtaken :
    ¬ Always sendingStep NotInterleaved .init
      (overtaken (List.replicate 16384 0x20) (ascii "{}")) := by
  intro h
  have hlong : ioBufSize < (sendMsg [] (List.replicate 16384 0x20)).length := by
    have hheader : 0 < (headerBytes [] 16384).length := by decide
    unfold sendMsg ioBufSize
    rw [List.length_append, List.length_replicate]
    omega
  have hpos : 0 < (sendMsg [] (ascii "{}")).length := by decide
  obtain ⟨s, hs, hfields⟩ := Option.map_eq_some_iff.mp (run_overtaken hlong hpos)
  obtain ⟨hframes, haccepted⟩ := Prod.mk.inj hfields
  have hcontiguous := h _ List.prefix_rfl s hs
  unfold NotInterleaved at hcontiguous
  rw [haccepted] at hcontiguous
  have hzero := hcontiguous.written_eq (by decide) (show 0 ≠ 1 by decide)
  have hmessage : message s 0 = sendMsg [] (List.replicate 16384 0x20) := by
    unfold message
    rw [hframes]
    rfl
  have hsize : 0 < ioBufSize := by decide
  rw [written_tag_self, hmessage, List.length_take] at hzero
  omega

end BuxnLs.Analysis
