/-
  The end of a session. All exits of `buxn_ls` go through one label, which runs the cleanup when
  `initialized` is set. The flag is cleared again for the second phase of the handshake, so an
  exit in that phase skips the cleanup of what `buxn_ls_initialize` has created
  (`cleaned_up_iff`). The cleanup cancels the timer but does not wait for a suspended analysis,
  so it runs during one exactly when the main loop ends during one (`no_analysis_outlives_iff`).
-/
import BuxnLs.Analysis.Session
import BuxnLs.Model.Handshake

namespace BuxnLs.Analysis

open BuxnLs.Lib BuxnLs.Model

/-! ## What a step does -/

/-- The message ends every loop of `buxn_ls`, as a failed read does. -/
def LeavesLoop : ConnectionLabel → Prop
  | .recv msg => msg.type = .notification ∧ msg.method = ascii "exit"
  | .recvFailed => True
  | .coroutine _ => False

instance (l : ConnectionLabel) : Decidable (LeavesLoop l) :=
  match l with
  | .recv _ => inferInstanceAs (Decidable (_ ∧ _))
  | .recvFailed => isTrue trivial
  | .coroutine _ => isFalse id

inductive ConnectionChange (E : Env) (s : Connection) : ConnectionLabel → Connection → Prop where
  | ignored {msg} : s.waiting = .forInitialize ∨ s.waiting = .forInitialized →
      msg.type = .notification → msg.method ≠ ascii "exit" → ConnectionChange E s (.recv msg) s
  | created {msg} : s.waiting = .forInitialize → ConnectionChange E s (.recv msg)
      { s with waiting := .forInitialized, initialized := false, created := true }
  | ready {msg} : s.waiting = .forInitialized → msg.type = .notification →
      msg.method ≠ ascii "exit" →
      ConnectionChange E s (.recv msg) { s with waiting := .serving, initialized := true }
  | served {msg session} : s.waiting = .serving → ¬ LeavesLoop (.recv msg) →
      sessionStep E s.session (.message msg) = some session →
      ConnectionChange E s (.recv msg) { s with session := session }
  | exited {msg session} : s.waiting = .serving → LeavesLoop (.recv msg) →
      sessionStep E s.session (.message msg) = some session →
      ConnectionChange E s (.recv msg) { s with session := session, exitCode := 0 }.finish
  | refused {msg} (code : Nat) : s.waiting = .forInitialize ∨ s.waiting = .forInitialized ∧
      (msg.type = .notification → LeavesLoop (.recv msg)) →
      ConnectionChange E s (.recv msg) { s with exitCode := code }.finish
  | failed : s.waiting ≠ .returned → ConnectionChange E s .recvFailed s.finish
  | coroutine {l session} : (∀ msg, l ≠ .message msg) →
      sessionStep E s.session l = some session →
      ConnectionChange E s (.coroutine l) { s with session := session }

/-- Exactly `exit` ends the main loop. -/
theorem message_terminates {E : Env} {s t : Session} {msg : InMsg}
    (h : sessionStep E s (.message msg) = some t) :
    t.shouldTerminate = true ↔ LeavesLoop (.recv msg) := by
  cases sessionStep_cases h with
  | message _ hrun hmsg =>
      have hstays : s.shouldTerminate ≠ true := by rw [hrun]; decide
      cases hmsg with
      | kept hno => exact ⟨fun h => absurd h hstays, fun h => absurd h.2 (hno h.1).1⟩
      | stopped htype _ =>
          exact ⟨fun h => absurd h hstays, fun h => absurd (htype.symm.trans h.1) (by decide)⟩
      | exited htype hexit => exact ⟨fun _ => ⟨htype, hexit⟩, fun _ => rfl⟩
      | edited _ hexit _ _ => exact ⟨fun h => absurd h hstays, fun h => absurd h.2 hexit⟩

theorem awaitInitialize_change {E : Env} {yuarelParse : Str → Option Url} {s t : Connection}
    {msg : InMsg} (hs : s.waiting = .forInitialize)
    (h : awaitInitialize yuarelParse s msg = some t) : ConnectionChange E s (.recv msg) t := by
  unfold awaitInitialize at h
  split at h
  · rename_i htype
    obtain rfl := Option.some.inj h
    split
    · exact .refused 0 (Or.inl hs)
    · rename_i hexit
      exact .ignored (Or.inl hs) htype hexit
  · split at h
    · obtain ⟨root, -, rfl⟩ := Option.map_eq_some_iff.mp h
      cases root with
      | none => exact .refused s.exitCode (Or.inl hs)
      | some _ => exact .created hs
    · obtain rfl := Option.some.inj h
      exact .refused s.exitCode (Or.inl hs)
  · obtain rfl := Option.some.inj h
    exact .refused s.exitCode (Or.inl hs)

theorem awaitInitialized_change {E : Env} {s : Connection} {msg : InMsg}
    (hs : s.waiting = .forInitialized) :
    ConnectionChange E s (.recv msg) (awaitInitialized s msg) := by
  unfold awaitInitialized
  split
  · rename_i htype
    split
    · rename_i hexit
      exact .refused 0 (Or.inr ⟨hs, fun _ => ⟨htype, hexit⟩⟩)
    · rename_i hexit
      split
      · exact .ready hs htype hexit
      · exact .ignored (Or.inr hs) htype hexit
  · rename_i htype
    exact .refused s.exitCode (Or.inr ⟨hs, fun h => absurd h htype⟩)

theorem connectionStep_change {E : Env} {yuarelParse : Str → Option Url} {s t : Connection}
    {l : ConnectionLabel} (h : connectionStep E yuarelParse s l = some t) :
    ConnectionChange E s l t := by
  unfold connectionStep at h
  split at h
  · rename_i msg
    split at h
    · split at h
      · exact awaitInitialize_change ‹_› h
      · exact Option.some.inj h ▸ awaitInitialized_change ‹_›
      · rename_i hs
        obtain ⟨session, hstep, rfl⟩ := Option.map_eq_some_iff.mp h
        by_cases hleave : LeavesLoop (.recv msg)
        · dsimp only
          rw [if_pos ((message_terminates hstep).mpr hleave)]
          exact .exited hs hleave hstep
        · dsimp only
          rw [if_neg (mt (message_terminates hstep).mp hleave)]
          exact .served hs hleave hstep
      · exact absurd h (by simp)
    · exact absurd h (by simp)
  · split at h
    · rename_i hs
      exact Option.some.inj h ▸ .failed hs.2
    · exact absurd h (by simp)
  · exact absurd h (by simp)
  · rename_i l hl
    obtain ⟨session, hstep, rfl⟩ := Option.map_eq_some_iff.mp h
    exact .coroutine hl hstep

/-! ## The phases -/

/-- The flag, what has been created and the timer, phase by phase. -/
structure PhaseOK (s : Connection) : Prop where
  before : s.waiting = .forInitialize → s.created = false ∧ s.initialized = false
  between : s.waiting = .forInitialized → s.created = true ∧ s.initialized = false
  serving : s.waiting = .serving → s.created = true ∧ s.initialized = true
  running : s.waiting ≠ .returned → s.cleanups = 0
  idle : s.waiting = .forInitialize ∨ s.waiting = .forInitialized → s.session.jobs = []
  timer : s.waiting ≠ .serving → s.session.timerPending = false

theorem phaseOK_init : PhaseOK .init where
  before := fun _ => ⟨rfl, rfl⟩
  between := fun h => by cases h
  serving := fun h => by cases h
  running := fun _ => rfl
  idle := fun _ => rfl
  timer := fun _ => rfl

@[simp] theorem finish_waiting (s : Connection) : s.finish.waiting = .returned := by
  unfold Connection.finish
  split <;> rfl

/-- A session that has returned stays so. -/
theorem connectionStep_returned {E : Env} {yuarelParse : Str → Option Url} {s t : Connection}
    {l : ConnectionLabel} (h : connectionStep E yuarelParse s l = some t)
    (hs : s.waiting = .returned) : t.waiting = .returned := by
  cases connectionStep_change h with
  | ignored _ _ _ => exact hs
  | created hw => exact absurd (hs.symm.trans hw) (by decide)
  | ready hw _ _ => exact absurd (hs.symm.trans hw) (by decide)
  | served hw _ _ => exact hs
  | exited hw _ _ => exact absurd (hs.symm.trans hw) (by decide)
  | refused _ _ => exact finish_waiting _
  | failed hw => exact absurd hs hw
  | coroutine _ _ => exact hs

@[simp] theorem finish_created (s : Connection) : s.finish.created = s.created := by
  unfold Connection.finish
  split <;> rfl

@[simp] theorem finish_jobs (s : Connection) : s.finish.session.jobs = s.session.jobs := by
  unfold Connection.finish
  split <;> rfl

theorem finish_cleanups (s : Connection) :
    s.finish.cleanups = if s.initialized = true then s.cleanups + 1 else s.cleanups := by
  unfold Connection.finish
  split <;> rfl

/-- The timer does not expire after the session: the cleanup cancels it, and where the cleanup is
    skipped it was never started. -/
theorem phaseOK_finish {s : Connection} (htimer : s.initialized = false →
    s.session.timerPending = false) : PhaseOK s.finish where
  before := fun h => by simp at h
  between := fun h => by simp at h
  serving := fun h => by simp at h
  running := fun h => by simp at h
  idle := fun h => by simp at h
  timer := by
    intro _
    unfold Connection.finish
    split
    · rfl
    · rename_i hflag
      exact htimer (by simpa using hflag)

/-- A move of the timer or of an analysis, while the timer is not pending, adds no call. -/
theorem coroutine_jobs {E : Env} {s t : Session} {l : SessionLabel} (hl : ∀ msg, l ≠ .message msg)
    (h : sessionStep E s l = some t) (htimer : s.timerPending = false) :
    t.jobs.length ≤ s.jobs.length ∧ t.timerPending = false := by
  cases sessionStep_jobs h with
  | expire hpend _ => exact absurd (htimer.symm.trans hpend) (by decide)
  | message _ => exact absurd rfl (hl _)
  | other _ _ hle hsame => exact ⟨hle, hsame.trans htimer⟩

theorem ConnectionChange.phaseOK {E : Env} {s t : Connection} {l : ConnectionLabel}
    (h : ConnectionChange E s l t) (hs : PhaseOK s) : PhaseOK t := by
  cases h with
  | ignored _ _ _ => exact hs
  | created hw =>
      exact
        { before := fun h => by simp at h
          between := fun _ => ⟨rfl, rfl⟩
          serving := fun h => by simp at h
          running := fun _ => hs.running (by rw [hw]; decide)
          idle := fun _ => hs.idle (Or.inl hw)
          timer := fun _ => hs.timer (by rw [hw]; decide) }
  | ready hw _ _ =>
      exact
        { before := fun h => by simp at h
          between := fun h => by simp at h
          serving := fun _ => ⟨(hs.between hw).1, rfl⟩
          running := fun _ => hs.running (by rw [hw]; decide)
          idle := fun h => by simp at h
          timer := fun h => absurd rfl h }
  | served hw _ hstep =>
      exact
        { before := hs.before
          between := hs.between
          serving := hs.serving
          running := hs.running
          idle := fun h => absurd (hw ▸ h) (by decide)
          timer := fun h => absurd hw h }
  | exited hw _ hstep =>
      have hflag := (hs.serving hw).2
      exact phaseOK_finish fun h => absurd (hflag.symm.trans h) (by decide)
  | refused _ hw =>
      have htimer : s.session.timerPending = false := by
        rcases hw with hw | ⟨hw, -⟩
        · exact hs.timer (by rw [hw]; decide)
        · exact hs.timer (by rw [hw]; decide)
      exact phaseOK_finish fun _ => htimer
  | failed hw =>
      refine phaseOK_finish fun hflag => hs.timer fun hserving => ?_
      exact absurd (hflag.symm.trans (hs.serving hserving).2) (by decide)
  | coroutine hl hstep =>
      have hquiet := fun hw => coroutine_jobs hl hstep (hs.timer hw)
      exact
        { before := hs.before
          between := hs.between
          serving := hs.serving
          running := hs.running
          idle := by
            intro hw
            have hle := (hquiet (by rcases hw with hw | hw <;> rw [hw] <;> decide)).1
            rw [hs.idle hw] at hle
            exact List.length_eq_zero_iff.mp (Nat.le_zero.mp hle)
          timer := fun hw => (hquiet hw).2 }

/-! ## The cleanup runs for what was created -/

/-- When the call has returned, the cleanup has run once if the session state was created, and
    not at all otherwise. -/
def CleanedUp (s : Connection) : Prop :=
  s.waiting = .returned → s.cleanups = if s.created = true then 1 else 0

/-- The session does not end while the server waits for `initialized`. -/
def NotAbandoned (s : Connection) (l : ConnectionLabel) : Prop :=
  s.waiting = .forInitialized →
    ¬ LeavesLoop l ∧ ∀ msg, l = .recv msg → msg.type = .notification

instance (s : Connection) (l : ConnectionLabel) : Decidable (NotAbandoned s l) :=
  match l with
  | .recv msg => decidable_of_iff
      (s.waiting = .forInitialized → ¬ LeavesLoop (.recv msg) ∧ msg.type = .notification)
      ⟨fun h hw => ⟨(h hw).1, fun _ hmsg => ConnectionLabel.recv.inj hmsg ▸ (h hw).2⟩,
        fun h hw => ⟨(h hw).1, (h hw).2 msg rfl⟩⟩
  | .recvFailed => decidable_of_iff (s.waiting ≠ .forInitialized)
      ⟨fun h hw => absurd hw h, fun h hw => (h hw).1 trivial⟩
  | .coroutine _ => isTrue fun _ => ⟨id, fun _ hmsg => by cases hmsg⟩

/-- The end cleans up exactly where the flag says what was created. -/
theorem cleanedUp_finish_iff {s : Connection} (hzero : s.cleanups = 0) :
    CleanedUp s.finish ↔ (s.initialized = true ↔ s.created = true) := by
  have hcleaned : CleanedUp s.finish ↔
      (if s.initialized = true then 1 else 0) = if s.created = true then 1 else 0 := by
    unfold CleanedUp
    rw [finish_cleanups, finish_created, finish_waiting, hzero]
    exact ⟨fun h => h rfl, fun h _ => h⟩
  rw [hcleaned]
  cases s.initialized <;> cases s.created <;> decide

/-- A step to a state that has not returned. -/
theorem cleanedUp_of_running {t : Connection} (h : t.waiting ≠ .returned) : CleanedUp t :=
  fun ht => absurd ht h

theorem ConnectionChange.cleanedUp_iff {E : Env} {s t : Connection} {l : ConnectionLabel}
    (h : ConnectionChange E s l t) (hphase : PhaseOK s) (hs : CleanedUp s) :
    CleanedUp t ↔ NotAbandoned s l := by
  -- in a phase other than the second one the condition asks for nothing
  have hother : s.waiting ≠ .forInitialized → NotAbandoned s l := fun hne hw => absurd hw hne
  cases h with
  | ignored _ htype hexit =>
      refine ⟨fun _ _ => ⟨fun h => hexit h.2, ?_⟩, fun _ => hs⟩
      intro msg hmsg
      obtain rfl := ConnectionLabel.recv.inj hmsg
      exact htype
  | created hw =>
      have hC := hother (by rw [hw]; decide)
      exact ⟨fun _ => hC, fun _ => cleanedUp_of_running (by simp)⟩
  | ready _ htype hexit =>
      refine ⟨fun _ _ => ⟨fun h => hexit h.2, ?_⟩, fun _ => cleanedUp_of_running (by simp)⟩
      intro msg hmsg
      obtain rfl := ConnectionLabel.recv.inj hmsg
      exact htype
  | served hw _ _ =>
      have hC := hother (by rw [hw]; decide)
      exact ⟨fun _ => hC, fun _ => hs⟩
  | @exited _ session hw _ _ =>
      have hC := hother (by rw [hw]; decide)
      obtain ⟨hcreated, hflag⟩ := hphase.serving hw
      have hzero := hphase.running (by rw [hw]; decide)
      refine ⟨fun _ => hC, fun _ => (cleanedUp_finish_iff
        (s := { s with session := session, exitCode := 0 }) hzero).mpr ?_⟩
      exact ⟨fun _ => hcreated, fun _ => hflag⟩
  | @refused msg code hw =>
      have hzero : s.cleanups = 0 := by
        rcases hw with hw | ⟨hw, -⟩
        · exact hphase.running (by rw [hw]; decide)
        · exact hphase.running (by rw [hw]; decide)
      rw [cleanedUp_finish_iff (s := { s with exitCode := code }) hzero]
      rcases hw with hw | ⟨hw, hleave⟩
      · obtain ⟨hcreated, hflag⟩ := hphase.before hw
        refine ⟨fun _ => hother (by rw [hw]; decide), fun _ => ?_⟩
        dsimp only
        rw [hcreated, hflag]
      · obtain ⟨hcreated, hflag⟩ := hphase.between hw
        dsimp only
        rw [hcreated, hflag]
        refine ⟨fun h => absurd (h.mpr rfl) (by decide), fun hC => ?_⟩
        obtain ⟨hstay, htype⟩ := hC hw
        exact absurd (hleave (htype msg rfl)) hstay
  | failed hw =>
      rw [cleanedUp_finish_iff (hphase.running hw)]
      cases hphase' : s.waiting with
      | forInitialize =>
          obtain ⟨hcreated, hflag⟩ := hphase.before hphase'
          rw [hcreated, hflag]
          exact ⟨fun _ => hother (by rw [hphase']; decide), fun _ => Iff.rfl⟩
      | forInitialized =>
          obtain ⟨hcreated, hflag⟩ := hphase.between hphase'
          rw [hcreated, hflag]
          exact ⟨fun h => absurd (h.mpr rfl) (by decide), fun hC => absurd trivial (hC hphase').1⟩
      | serving =>
          obtain ⟨hcreated, hflag⟩ := hphase.serving hphase'
          rw [hcreated, hflag]
          exact ⟨fun _ => hother (by rw [hphase']; decide), fun _ => Iff.rfl⟩
      | returned => exact absurd hphase' hw
  | coroutine _ _ =>
      refine ⟨fun _ _ => ⟨id, fun msg hmsg => ?_⟩, fun _ => hs⟩
      exact absurd hmsg (by simp)

/-- In every state of a run the cleanup has run for exactly what was created, exactly when the
    session is not ended between `initialize` and `initialized`. -/
theorem cleaned_up_iff (E : Env) (yuarelParse : Str → Option Url) {ls : List ConnectionLabel}
    (hrun : (run (connectionStep E yuarelParse) .init ls).isSome) :
    Always (connectionStep E yuarelParse) CleanedUp .init ls ↔
      Meets (connectionStep E yuarelParse) NotAbandoned .init ls :=
  always_iff_meets_of_inv (I := PhaseOK) (fun _ _ _ hs h => (connectionStep_change h).phaseOK hs)
    (fun _ _ _ hphase hs h => (connectionStep_change h).cleanedUp_iff hphase hs) phaseOK_init
    (cleanedUp_of_running (by simp [Connection.init])) hrun

/-- `yuarel_parse` on ASCII. -/
def asciiUrl (uri : Str) : Option Url :=
  if ascii "file://" <+: uri then some ⟨some (ascii "file"), some (uri.drop 7)⟩ else none

def initializeMsg : InMsg where
  type := .request
  method := ascii "initialize"
  value := some (.obj [(ascii "rootUri", .str (ascii "file:///w/"))])

def plainNotification (method : Str) : InMsg := ⟨.notification, method, none⟩

/-- The handshake and then `exit`: the cleanup runs once. -/
theorem cleaned_up_after_handshake :
    (run (connectionStep asciiEnv asciiUrl) .init
        [.recv initializeMsg, .recv (plainNotification (ascii "initialized")),
          .recv (plainNotification (ascii "exit"))]).map
      (fun t => (t.waiting, t.created, t.cleanups)) = some (.returned, true, 1) ∧
    Always (connectionStep asciiEnv asciiUrl) CleanedUp .init
      [.recv initializeMsg, .recv (plainNotification (ascii "initialized")),
        .recv (plainNotification (ascii "exit"))] :=
  ⟨by decide, (cleaned_up_iff asciiEnv asciiUrl (by decide)).mpr (by decide)⟩

/-- The connection is lost before the client sends `initialized`. -/
theorem lost_before_initialized_leaks :
    ¬ Always (connectionStep asciiEnv asciiUrl) CleanedUp .init
      [.recv initializeMsg, .recvFailed] := by
  intro h
  have hend : (run (connectionStep asciiEnv asciiUrl) .init
      [.recv initializeMsg, .recvFailed]).map
        (fun s => (s.waiting, s.created, s.cleanups)) = some (.returned, true, 0) := by decide
  obtain ⟨s, hs, hfields⟩ := Option.map_eq_some_iff.mp hend
  obtain ⟨hw, hcreated, hzero⟩ : s.waiting = .returned ∧ s.created = true ∧ s.cleanups = 0 := by
    simpa using hfields
  have hone := h _ List.prefix_rfl s hs hw
  rw [hcreated, hzero] at hone
  exact absurd hone (by decide)

/-! ## The cleanup waits for no analysis -/

/-- The cleanup has not run on a context with an analysis in progress. -/
def NoneOutlives (s : Connection) : Prop := s.cleanups ≠ 0 → s.session.jobs = []

/-- The main loop ends while no analysis is in progress. -/
def EndsIdle (s : Connection) (l : ConnectionLabel) : Prop :=
  s.waiting = .serving → LeavesLoop l → s.session.jobs = []

instance (s : Connection) (l : ConnectionLabel) : Decidable (EndsIdle s l) :=
  decidable_of_iff (s.waiting = .serving → LeavesLoop l → s.session.jobs.isEmpty = true)
    (forall₂_congr fun _ _ => List.isEmpty_iff)

/-- The end leaves no analysis behind when none is in progress or nothing is cleaned up. -/
theorem noneOutlives_finish_iff {s : Connection} (hzero : s.cleanups = 0) :
    NoneOutlives s.finish ↔ (s.initialized = true → s.session.jobs = []) := by
  unfold NoneOutlives
  rw [finish_cleanups, finish_jobs, hzero]
  cases s.initialized with
  | true => exact ⟨fun h _ => h (by decide), fun h _ => h rfl⟩
  | false => exact ⟨fun _ h => absurd h (by decide), fun _ h => absurd rfl h⟩

theorem ConnectionChange.noneOutlives_iff {E : Env} {s t : Connection} {l : ConnectionLabel}
    (h : ConnectionChange E s l t) (hphase : PhaseOK s) (hs : NoneOutlives s) :
    NoneOutlives t ↔ EndsIdle s l := by
  have hother : s.waiting ≠ .serving → EndsIdle s l := fun hne hw => absurd hw hne
  have hstays : ¬ LeavesLoop l → EndsIdle s l := fun hno _ hl => absurd hl hno
  cases h with
  | ignored hw _ hexit => exact ⟨fun _ => hstays fun h => hexit h.2, fun _ => hs⟩
  | created hw => exact ⟨fun _ => hother (by rw [hw]; decide), fun _ => hs⟩
  | ready hw _ _ => exact ⟨fun _ => hother (by rw [hw]; decide), fun _ => hs⟩
  | served hw hno _ =>
      have hzero := hphase.running (by rw [hw]; decide)
      exact ⟨fun _ => hstays hno, fun _ h => absurd hzero h⟩
  | @exited _ session hw hleave hstep =>
      have hzero := hphase.running (by rw [hw]; decide)
      have hflag := (hphase.serving hw).2
      have hjobs : session.jobs = s.session.jobs := by
        cases sessionStep_jobs hstep with
        | message hjobs => exact hjobs
        | other hne _ _ _ => exact absurd rfl (hne _)
      rw [noneOutlives_finish_iff (s := { s with session := session, exitCode := 0 }) hzero]
      dsimp only
      rw [hjobs]
      exact ⟨fun h _ _ => h hflag, fun h _ => h hw hleave⟩
  | @refused msg code hw =>
      have hw' : s.waiting = .forInitialize ∨ s.waiting = .forInitialized := hw.imp_right And.left
      have hzero : s.cleanups = 0 := hphase.running (by rcases hw' with h | h <;> rw [h] <;> decide)
      rw [noneOutlives_finish_iff (s := { s with exitCode := code }) hzero]
      refine ⟨fun _ => hother ?_, fun _ _ => hphase.idle hw'⟩
      rcases hw' with h | h <;> rw [h] <;> decide
  | failed hw =>
      rw [noneOutlives_finish_iff (hphase.running hw)]
      constructor
      · exact fun h hserving _ => h (hphase.serving hserving).2
      · intro h hflag
        by_cases hserving : s.waiting = .serving
        · exact h hserving trivial
        · cases hw' : s.waiting with
          | forInitialize => exact hphase.idle (Or.inl hw')
          | forInitialized => exact hphase.idle (Or.inr hw')
          | serving => exact absurd hw' hserving
          | returned => exact absurd hw' hw
  | @coroutine l session hl hstep =>
      refine ⟨fun _ => hstays id, fun _ hcleaned => ?_⟩
      -- the main loop has ended, and with it the timer
      have hjobs : s.session.jobs = [] := hs hcleaned
      have hserving : s.waiting ≠ .serving := by
        intro hw
        exact hcleaned (hphase.running (by rw [hw]; decide))
      have hle := (coroutine_jobs hl hstep (hphase.timer hserving)).1
      rw [hjobs] at hle
      exact List.length_eq_zero_iff.mp (Nat.le_zero.mp hle)

/-- In no state of a run has the cleanup run during an analysis, exactly when the main loop ends
    only while none is in progress. -/
theorem no_analysis_outlives_iff (E : Env) (yuarelParse : Str → Option Url)
    {ls : List ConnectionLabel} (hrun : (run (connectionStep E yuarelParse) .init ls).isSome) :
    Always (connectionStep E yuarelParse) NoneOutlives .init ls ↔
      Meets (connectionStep E yuarelParse) EndsIdle .init ls :=
  always_iff_meets_of_inv (I := PhaseOK) (fun _ _ _ hs h => (connectionStep_change h).phaseOK hs)
    (fun _ _ _ hphase hs h => (connectionStep_change h).noneOutlives_iff hphase hs) phaseOK_init
    (fun h => absurd rfl h) hrun

/-- The handshake, and then the moves of a session. -/
def afterHandshake (moves : List ConnectionLabel) : List ConnectionLabel :=
  .recv initializeMsg :: .recv (plainNotification (ascii "initialized")) :: moves

/-- A document is opened and its analysis suspended at a file that it includes. -/
def suspendedAnalysis : List ConnectionLabel :=
  afterHandshake
    [.recv (changeMsg (ascii "textDocument/didOpen") (ascii "~b")), .coroutine .expire,
      .coroutine (.advance (.start includeDocs)), .coroutine (.advance .enter),
      .coroutine (.advance (.event (.fopen includeDocs ⟨1, ascii "a"⟩ none))),
      .coroutine (.readFile ⟨2, ascii "b"⟩)]

/-- It goes on when the file has been read, and ends; then the client sends `exit`. -/
def finishedAnalysis : List ConnectionLabel :=
  suspendedAnalysis ++
    [.coroutine (.resume 0), .coroutine (.fileRead none),
      .coroutine (.advance (.asmDone true)), .coroutine (.advance .chessDone),
      .coroutine (.advance .leave), .coroutine (.advance .finish), .coroutine .finished,
      .recv (plainNotification (ascii "exit"))]

/-- The cleanup comes behind the analysis. -/
theorem none_outlives_finished :
    (run (connectionStep asciiEnv asciiUrl) .init finishedAnalysis).map
      (fun t => (t.cleanups, t.session.jobs.length)) = some (1, 0) ∧
    Always (connectionStep asciiEnv asciiUrl) NoneOutlives .init finishedAnalysis :=
  ⟨by decide, (no_analysis_outlives_iff asciiEnv asciiUrl (by decide)).mpr (by decide)⟩

/-- The client sends `exit` while the analysis is suspended. -/
theorem exit_frees_running_analysis :
    ¬ Always (connectionStep asciiEnv asciiUrl) NoneOutlives .init
      (suspendedAnalysis ++ [.recv (plainNotification (ascii "exit"))]) := by
  intro h
  have hend : (run (connectionStep asciiEnv asciiUrl) .init
      (suspendedAnalysis ++ [.recv (plainNotification (ascii "exit"))])).map
        (fun s => (s.cleanups, s.session.jobs.length)) = some (1, 1) := by decide
  obtain ⟨s, hs, hfields⟩ := Option.map_eq_some_iff.mp hend
  obtain ⟨hone, hlen⟩ : s.cleanups = 1 ∧ s.session.jobs.length = 1 := by simpa using hfields
  have hnone := h _ List.prefix_rfl s hs (by omega)
  rw [hnone] at hlen
  exact absurd hlen (by decide)

end BuxnLs.Analysis
