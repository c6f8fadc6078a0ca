/-
  The steps of a session, and at most one analysis. `sessionStep_cases` lists what a step can do.
  It adds a call only when the timer expires, so a run stays at one call exactly when each expiry
  finds none in progress.
-/
import BuxnLs.Lib.Run
import BuxnLs.Model.AsciiEnv
import BuxnLs.Model.Session

namespace BuxnLs.Analysis

open BuxnLs.Lib BuxnLs.Model

variable {E : Env}

/-! ## The steps of a session -/

/-- What a message can do. -/
inductive MsgCase (E : Env) (s : Session) (msg : InMsg) : Session → Prop where
  | kept : (msg.type = .notification →
        msg.method ≠ ascii "exit" ∧ ¬ ascii "textDocument/" <+: msg.method) →
      MsgCase E s msg s
  | stopped : msg.type = .request →
      (msg.method = ascii "shutdown" ∨ msg.method = ascii "textDocument/completion" ∧
        ∃ path, documentPath E msg.value = some path ∧
          (completionCtx E s.analyzer.current s.docs path (positionOf msg.value)).isSome = true) →
      MsgCase E s msg s.cancelTimer
  | exited : msg.type = .notification → msg.method = ascii "exit" →
      MsgCase E s msg { s.cancelTimer with shouldTerminate := true }
  | edited {docs} : msg.type = .notification → msg.method ≠ ascii "exit" →
      ascii "textDocument/" <+: msg.method → workspaceUpdate E s.docs msg = some docs →
      MsgCase E s msg { s with docs := docs, timerPending := true }

theorem stopForCompletion_case {s : Session} {msg : InMsg} (htype : msg.type = .request)
    (hmethod : msg.method = ascii "textDocument/completion") :
    MsgCase E s msg (stopForCompletion E s msg.value) := by
  have hkept : MsgCase E s msg s := .kept fun h => absurd (htype.symm.trans h) (by decide)
  unfold stopForCompletion
  split
  · exact hkept
  · rename_i path hpath
    split
    · rename_i hctx
      exact .stopped htype (Or.inr ⟨hmethod, path, hpath, hctx⟩)
    · exact hkept

theorem handleMsg_cases {s t : Session} {msg : InMsg} (h : handleMsg E s msg = some t) :
    MsgCase E s msg t := by
  unfold handleMsg at h
  split at h
  · rename_i htype
    split at h
    · cases h
    · split at h
      · rename_i hmethod
        cases h
        exact .stopped htype (Or.inl hmethod)
      · split at h
        · rename_i hmethod
          cases h
          exact stopForCompletion_case htype hmethod
        · cases h
          exact .kept fun h => absurd (htype.symm.trans h) (by decide)
  · rename_i htype
    split at h
    · rename_i hexit
      cases h
      exact .exited htype hexit
    · rename_i hexit
      split at h
      · rename_i hmethod
        obtain ⟨docs, hdocs, rfl⟩ := Option.map_eq_some_iff.mp h
        exact .edited htype hexit hmethod hdocs
      · rename_i hmethod
        cases h
        exact .kept fun _ => ⟨hexit, hmethod⟩
  · rename_i hnotification
    cases h
    exact .kept fun h => absurd h hnotification

/-- A message leaves the analyzer to the calls, and starts and resumes none. -/
theorem MsgCase.frame {s t : Session} {msg : InMsg} (h : MsgCase E s msg t) :
    t.analyzer = s.analyzer ∧ t.active = s.active ∧ t.jobs = s.jobs := by
  cases h <;> exact ⟨rfl, rfl, rfl⟩

/-- The call after a step of its analysis. -/
def jobAfter (l : Label) (phase : Phase) : Job :=
  match l with
  | .finish => .publishing
  | _ => .analysis phase

/-- The cases of `sessionStep`, with their guards. -/
inductive SessionCase (E : Env) (s : Session) : SessionLabel → Session → Prop where
  | message {msg t} : s.active = none → s.shouldTerminate = false → MsgCase E s msg t →
      SessionCase E s (.message msg) t
  | expire : s.active = none → s.timerPending = true →
      SessionCase E s .expire
        { s with
          timerPending := false, jobs := s.jobs ++ [.analysis .idle]
          active := some s.jobs.length }
  | advance {j : Nat} {phase l m} : s.active = some j → s.jobs[j]? = some (.analysis phase) →
      readsDocs s.docs l = true → step E ⟨s.analyzer, phase⟩ l = some m →
      SessionCase E s (.advance l)
        { s with analyzer := m.analyzer, jobs := s.jobs.set j (jobAfter l m.phase) }
  | readFile {filename i ctx} {j : Nat} : s.active = some j →
      s.jobs[j]? = some (.analysis (.asm i ctx)) →
      s.analyzer.files.find? filename.chars = none → s.docs.find? filename.chars = none →
      SessionCase E s (.readFile filename)
        { s with jobs := s.jobs.set j (.reading i ctx filename), active := none }
  | fileRead {disk filename i ctx} {j : Nat} : s.active = some j →
      s.jobs[j]? = some (.reading i ctx filename) →
      SessionCase E s (.fileRead disk)
        { s with
          analyzer := (finishFopen E ⟨s.analyzer, ctx⟩ filename disk).analyzer
          jobs := s.jobs.set j
            (.analysis (.asm i (finishFopen E ⟨s.analyzer, ctx⟩ filename disk).ctx)) }
  | send {j : Nat} : s.active = some j → s.jobs[j]? = some .publishing →
      SessionCase E s .send { s with active := none }
  | resume {j} : s.active = none → SessionCase E s (.resume j) { s with active := some j }
  | finished {j : Nat} : s.active = some j → s.jobs[j]? = some .publishing →
      SessionCase E s .finished { s with jobs := s.jobs.eraseIdx j, active := none }

theorem sessionStep_cases {s t : Session} {l : SessionLabel} (h : sessionStep E s l = some t) :
    SessionCase E s l t := by
  cases l with
  | message msg =>
      simp only [sessionStep] at h
      split at h
      · rename_i hc
        exact .message hc.1 (by simpa using hc.2) (handleMsg_cases h)
      · cases h
  | expire =>
      simp only [sessionStep] at h
      split at h
      · rename_i hc
        cases h
        exact .expire hc.1 hc.2
      · cases h
  | advance l =>
      simp only [sessionStep] at h
      split at h
      · cases h
      · rename_i j hj
        split at h
        · rename_i phase hphase
          split at h
          · rename_i hreads
            obtain ⟨m, hm, rfl⟩ := Option.map_eq_some_iff.mp h
            exact .advance hj hphase hreads.1 hm
          · cases h
        · cases h
  | readFile filename =>
      simp only [sessionStep] at h
      split at h
      · cases h
      · rename_i j hj
        split at h
        · rename_i i ctx hjob
          split at h
          · rename_i hdisk
            cases h
            obtain ⟨hfiles, hdocs⟩ := of_decide_eq_true hdisk
            exact .readFile hj hjob hfiles hdocs
          · cases h
        · cases h
  | fileRead disk =>
      simp only [sessionStep] at h
      split at h
      · cases h
      · rename_i j hj
        split at h
        · rename_i i ctx filename hjob
          cases h
          exact .fileRead hj hjob
        · cases h
  | send =>
      simp only [sessionStep] at h
      split at h
      · rename_i hjob
        cases h
        obtain ⟨j, hj, hjob⟩ := Option.bind_eq_some_iff.mp hjob
        exact .send hj hjob
      · cases h
  | resume j =>
      simp only [sessionStep] at h
      split at h
      · rename_i hc
        cases h
        exact .resume hc.1
      · cases h
  | finished =>
      simp only [sessionStep] at h
      split at h
      · cases h
      · rename_i j hj
        split at h
        · rename_i hjob
          cases h
          exact .finished hj hjob
        · cases h

/-! ## At most one analysis -/

/-- At most one call of `buxn_ls_analyze_workspace` has started and not finished. -/
def AtMostOne (s : Session) : Prop := s.jobs.length ≤ 1

/-- The timer does not expire while an analysis is in progress. -/
def ExpiresIdle (s : Session) : SessionLabel → Prop
  | .expire => s.jobs = []
  | _ => True

instance (s : Session) (l : SessionLabel) : Decidable (ExpiresIdle s l) :=
  match l with
  | .expire => decidable_of_iff (s.jobs.isEmpty = true) List.isEmpty_iff
  | .message _ | .advance _ | .readFile _ | .fileRead _ | .send | .resume _ | .finished =>
    isTrue trivial

/-- What a step does to the calls in progress and to the timer. -/
inductive JobChange (s t : Session) : SessionLabel → Prop where
  | expire : s.timerPending = true → t.jobs = s.jobs ++ [.analysis .idle] → JobChange s t .expire
  | message {msg} : t.jobs = s.jobs → JobChange s t (.message msg)
  | other {l} : (∀ msg, l ≠ .message msg) → l ≠ .expire → t.jobs.length ≤ s.jobs.length →
      t.timerPending = s.timerPending → JobChange s t l

theorem sessionStep_jobs {s t : Session} {l : SessionLabel} (h : sessionStep E s l = some t) :
    JobChange s t l := by
  cases sessionStep_cases h with
  | message _ _ hmsg => exact .message hmsg.frame.2.2
  | expire _ htimer => exact .expire htimer rfl
  | advance _ _ _ _ => exact .other (by simp) (by simp) (by simp) rfl
  | readFile _ _ _ _ => exact .other (by simp) (by simp) (by simp) rfl
  | fileRead _ _ => exact .other (by simp) (by simp) (by simp) rfl
  | send _ _ => exact .other (by simp) (by simp) (Nat.le_refl _) rfl
  | resume _ => exact .other (by simp) (by simp) (Nat.le_refl _) rfl
  | finished _ _ => exact .other (by simp) (by simp) (List.length_eraseIdx_le _ _) rfl

/-- One step: a second call comes from an expiry during the first, and from nothing else. -/
theorem sessionStep_atMostOne {s t : Session} {l : SessionLabel} (hs : AtMostOne s)
    (h : sessionStep E s l = some t) : AtMostOne t ↔ ExpiresIdle s l := by
  unfold AtMostOne at hs ⊢
  cases sessionStep_jobs h with
  | expire _ hjobs =>
      rw [hjobs, List.length_append, List.length_singleton]
      constructor
      · intro hle
        exact List.length_eq_zero_iff.mp (by omega)
      · intro hidle
        rw [show s.jobs = [] from hidle]
        exact Nat.le_refl _
  | message hjobs =>
      rw [hjobs]
      exact ⟨fun _ => trivial, fun _ => hs⟩
  | other hmsg hne hle _ =>
      refine ⟨fun _ => ?_, fun _ => hle.trans hs⟩
      cases l <;> trivial

/-- At most one analysis is in progress throughout a session exactly when the timer never
    expires while an analysis is in progress. -/
theorem at_most_one_analysis_iff (E : Env) {ls : List SessionLabel}
    (hrun : (run (sessionStep E) Session.init ls).isSome) :
    Always (sessionStep E) AtMostOne Session.init ls ↔
      Meets (sessionStep E) ExpiresIdle Session.init ls :=
  always_iff_meets (fun _ _ _ hs h => sessionStep_atMostOne hs h) (Nat.zero_le _) hrun

/-! ## A change that arrives while a file is read -/

/-- `a` is opened and analyzed; while the file `b` that it includes is read from disk, `a` is
    changed. -/
def changeMsg (method text : Str) : InMsg where
  type := .notification
  method := method
  value := some (.obj
    [(ascii "textDocument",
      .obj [(ascii "uri", .str (ascii "file:///w/a")), (ascii "text", .str text)]),
     (ascii "contentChanges", .arr [.obj [(ascii "text", .str text)]])])

def includeDocs : Docs := Table.empty.put (ascii "a") (ascii "~b")

def changedDuringRead : List SessionLabel :=
  [.message (changeMsg (ascii "textDocument/didOpen") (ascii "~b")), .expire,
    .advance (.start includeDocs), .advance .enter,
    .advance (.event (.fopen includeDocs ⟨1, ascii "a"⟩ none)), .readFile ⟨2, ascii "b"⟩,
    .message (changeMsg (ascii "textDocument/didChange") (ascii "~b ")), .expire]

/-- Its timer expires and starts a second analysis beside the first. -/
theorem at_most_one_analysis_fails :
    ¬ Always (sessionStep asciiEnv) AtMostOne Session.init changedDuringRead := by
  intro h
  have htwo : (run (sessionStep asciiEnv) Session.init changedDuringRead).map
      (fun s => s.jobs.length) = some 2 := by decide
  obtain ⟨s, hs, hlen⟩ := Option.map_eq_some_iff.mp htwo
  have hle : s.jobs.length ≤ 1 := h changedDuringRead (List.prefix_refl _) s hs
  omega

/-- `a` is opened and analyzed, and changed when the analysis has been published. -/
def changedAfterwards : List SessionLabel :=
  changedDuringRead.take 6 ++
    [.resume 0, .fileRead none, .advance (.asmDone false), .advance .leave, .advance .finish,
      .finished, .message (changeMsg (ascii "textDocument/didChange") (ascii "~b ")), .expire]

theorem at_most_one_analysis_afterwards :
    Always (sessionStep asciiEnv) AtMostOne Session.init changedAfterwards :=
  (at_most_one_analysis_iff asciiEnv (by decide)).mpr (by decide)

end BuxnLs.Analysis
