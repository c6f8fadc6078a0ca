/-
  A session settles. Without a further message, the analysis in progress can get to its end and be
  published, and a pending timer can expire and start the next one, which reads the documents as
  they are (`session_can_settle`): an edit waits for nothing but the timer and the assembler.
-/
import BuxnLs.Analysis.Freshness
import BuxnLs.Analysis.Progress

namespace BuxnLs.Analysis

open BuxnLs.Lib BuxnLs.Model

variable {E : Env}

/-- In the analysis of the session, the assembler only refers to files that it has opened. -/
def SessionRefers (s : Session) : SessionLabel → Prop
  | .advance l => RefersToOpened (machineOf s) l
  | _ => True

instance (s : Session) (l : SessionLabel) : Decidable (SessionRefers s l) :=
  match l with
  | .advance l => inferInstanceAs (Decidable (RefersToOpened (machineOf s) l))
  | .message _ | .expire | .readFile _ | .fileRead _ | .send | .resume _ | .finished =>
    isTrue trivial

/-- The session can go on by itself. -/
structure Settling (E : Env) (s : Session) : Prop where
  one : AtMostOne s
  machine : Reachable (step E) .init (machineOf s)
  connectable : Connectable E (machineOf s)
  missing : ReadsNew s
  active : ∀ j, s.active = some j → j < s.jobs.length

theorem settling_init (E : Env) : Settling E Session.init where
  one := Nat.zero_le _
  machine := .refl _
  connectable := connectable_init E
  missing := fun _ h => by cases h
  active := fun _ h => by cases h

theorem sessionStep_active {s t : Session} {l : SessionLabel}
    (hs : ∀ j, s.active = some j → j < s.jobs.length) (h : sessionStep E s l = some t) :
    ∀ j, t.active = some j → j < t.jobs.length := by
  intro j hj
  cases l with
  | resume k =>
      simp only [sessionStep] at h
      split at h
      · next hc =>
          cases h
          cases hj
          exact hc.2
      · cases h
  | message msg =>
      cases sessionStep_cases h with
      | message hactive _ hmsg =>
          rw [hmsg.frame.2.1, hactive] at hj
          cases hj
  | expire =>
      cases sessionStep_cases h with
      | expire _ _ =>
          cases hj
          simp
  | advance l =>
      cases sessionStep_cases h with
      | advance _ _ _ _ =>
          rw [List.length_set]
          exact hs j hj
  | readFile filename =>
      cases sessionStep_cases h with
      | readFile _ _ _ _ => cases hj
  | fileRead disk =>
      cases sessionStep_cases h with
      | fileRead _ _ =>
          rw [List.length_set]
          exact hs j hj
  | send =>
      cases sessionStep_cases h with
      | send _ _ => cases hj
  | finished =>
      cases sessionStep_cases h with
      | finished _ _ => cases hj

theorem Settling.next {s t : Session} {l : SessionLabel} (hs : Settling E s)
    (hidle : ExpiresIdle s l) (hrefs : SessionRefers s l) (h : sessionStep E s l = some t) :
    Settling E t := by
  have hsolo := sessionStep_solo hs.one hidle h
  constructor
  case one => exact (sessionStep_atMostOne hs.one h).mpr hidle
  case machine => exact hsolo.reachable hs.missing hs.machine
  case connectable =>
    cases hsolo with
    | advance _ hstep _ => exact step_connectable hs.connectable hrefs hstep
    | readFile _ _ hsame _ => exact hsame ▸ hs.connectable
    | @fileRead disk filename hreading hstep _ =>
        refine step_connectable (l := .event (.fopen .empty filename disk)) hs.connectable
          trivial ?_
        exact hstep (hs.missing _ hreading) .empty (Table.find?_empty _)
    | still _ hsame _ => exact hsame ▸ hs.connectable
  case missing => exact hsolo.readsNew hs.missing
  case active => exact sessionStep_active hs.active h

/-! ## Steps without a message -/

/-- A step that no message causes, and that keeps to the conditions of the run. -/
structure OwnStep (s : Session) (l : SessionLabel) : Prop where
  own : ∀ msg, l ≠ .message msg
  idle : ExpiresIdle s l
  refers : SessionRefers s l

/-- The session gets from `s` to `t` by itself. -/
def Settles (E : Env) (s t : Session) : Prop :=
  ∃ ks, run (sessionStep E) s ks = some t ∧ Meets (sessionStep E) OwnStep s ks

theorem Settles.refl (s : Session) : Settles E s s := ⟨[], rfl, meets_nil _ s⟩

theorem Settles.trans {s t u : Session} (h : Settles E s t) (h' : Settles E t u) :
    Settles E s u := by
  obtain ⟨ks, hrun, hks⟩ := h
  obtain ⟨ks', hrun', hks'⟩ := h'
  exact ⟨ks ++ ks', by rw [run_append, hrun, Option.bind_some, hrun'], hks.append hrun hks'⟩

theorem settles_step {s t : Session} {l : SessionLabel} (hl : OwnStep s l)
    (h : sessionStep E s l = some t) : Settles E s t :=
  ⟨[l], by rw [run_cons, h, Option.bind_some, run_nil],
    meets_cons_iff.mpr ⟨hl, fun u _ => meets_nil _ u⟩⟩

theorem Settles.settling {s t : Session} (h : Settles E s t) (hs : Settling E s) :
    Settling E t := by
  obtain ⟨ks, hrun, hks⟩ := h
  exact run_inv_of_meets (fun _ _ _ hs hl h => Settling.next hs hl.idle hl.refers h) hs hks hrun

theorem Settles.docs {s t : Session} (h : Settles E s t) : t.docs = s.docs := by
  obtain ⟨ks, hrun, hks⟩ := h
  refine run_inv_of_meets (P := fun u => u.docs = s.docs) (fun u l v hu hl huv => ?_) rfl hks hrun
  rw [← hu]
  cases sessionStep_cases huv with
  | message _ _ _ => exact absurd rfl (hl.own _)
  | expire _ _ => rfl
  | advance _ _ _ _ => rfl
  | readFile _ _ _ _ => rfl
  | fileRead _ _ => rfl
  | send _ _ => rfl
  | resume _ => rfl
  | finished _ _ => rfl

/-! ## The call in progress -/

theorem machineOf_analysis {s : Session} {phase : Phase} (hjobs : s.jobs = [.analysis phase]) :
    machineOf s = ⟨s.analyzer, phase⟩ := by
  unfold machineOf phaseOf
  rw [hjobs]

theorem sessionStep_advance {s : Session} {phase : Phase} {l : Label} {m : Machine}
    (hjobs : s.jobs = [.analysis phase]) (hactive : s.active = some 0)
    (hreads : readsDocs s.docs l = true) (hruns : suspends s.analyzer s.docs l = false)
    (h : step E ⟨s.analyzer, phase⟩ l = some m) :
    sessionStep E s (.advance l) =
      some { s with analyzer := m.analyzer, jobs := [jobAfter l m.phase] } := by
  simp only [sessionStep, hactive, hjobs, List.getElem?_cons_zero]
  rw [if_pos ⟨hreads, by rw [hruns]; decide⟩, h, Option.map_some, List.set_cons_zero]
  rfl

theorem readsDocs_of_control (a : Analyzer) (docs : Docs) {l : Label} (hl : isControl l = true) :
    readsDocs docs l = true ∧ suspends a docs l = false := by
  cases l with
  | event ev => exact absurd hl Bool.false_ne_true
  | start docs => exact absurd hl Bool.false_ne_true
  | skip => exact ⟨rfl, rfl⟩
  | enter => exact ⟨rfl, rfl⟩
  | asmDone success => exact ⟨rfl, rfl⟩
  | chessDone => exact ⟨rfl, rfl⟩
  | leave => exact ⟨rfl, rfl⟩
  | finish => exact ⟨rfl, rfl⟩

theorem control_to_idle {m m' : Machine} {l : Label} (hl : isControl l = true)
    (h : step E m l = some m') (hidle : m'.phase = .idle) : l = .finish := by
  cases step_cases h with
  | start _ _ => exact absurd hl Bool.false_ne_true
  | event _ _ => exact absurd hl Bool.false_ne_true
  | skip _ _ _ => cases hidle
  | enter _ _ _ => cases hidle
  | asmDone _ _ _ => cases hidle
  | asmEnded _ _ => cases hidle
  | chessDone _ => cases hidle
  | leave _ _ => cases hidle
  | finish _ _ => rfl

/-- The analysis gets to its end, and the call to what it publishes. -/
theorem analysis_settles {s : Session} (hs : Settling E s) {phase : Phase}
    (hjobs : s.jobs = [.analysis phase]) (hactive : s.active = some 0) (hphase : phase ≠ .idle) :
    ∃ t, Settles E s t ∧ t.jobs = [.publishing] ∧ t.active = some 0 ∧
      t.timerPending = s.timerPending := by
  generalize hn : stepsToEnd ⟨s.analyzer, phase⟩ = left
  induction left using Nat.strongRecOn generalizing s phase with
  | ind left ih =>
      have hm := hs.connectable
      rw [machineOf_analysis hjobs] at hm
      obtain ⟨l, m, hl, hstep⟩ := exists_control hm hphase
      have hown : OwnStep s (.advance l) :=
        ⟨by simp, trivial, refersToOpened_of_control hl⟩
      obtain ⟨hreads, hruns⟩ := readsDocs_of_control s.analyzer s.docs hl
      have hadvance := sessionStep_advance hjobs hactive hreads hruns hstep
      have hfirst := settles_step hown hadvance
      by_cases hfinish : l = .finish
      · subst hfinish
        exact ⟨_, hfirst, rfl, hactive, rfl⟩
      · have hphase' : m.phase ≠ .idle := fun hidle => hfinish (control_to_idle hl hstep hidle)
        have hjob : jobAfter l m.phase = .analysis m.phase := by
          cases l with
          | finish => exact absurd rfl hfinish
          | start docs => rfl
          | skip => rfl
          | enter => rfl
          | event ev => rfl
          | asmDone success => rfl
          | chessDone => rfl
          | leave => rfl
        have hnearer := step_stepsToEnd hm.ok
          (fun docs he => by simp [he, isControl] at hl) hstep
        rw [hl] at hnearer
        obtain ⟨t, ht, hpublishing⟩ := ih _ (hn ▸ hnearer) (hfirst.settling hs)
          (congrArg (fun job => [job]) hjob) hactive hphase' rfl
        exact ⟨t, hfirst.trans ht, hpublishing⟩

theorem publishing_settles {s : Session} (hjobs : s.jobs = [.publishing])
    (hactive : s.active = some 0) :
    Settles E s { s with jobs := [], active := none } := by
  refine settles_step (l := .finished) ⟨by simp, trivial, trivial⟩ ?_
  simp only [sessionStep, hactive, hjobs, List.getElem?_cons_zero, List.eraseIdx_zero,
    List.tail_cons]

/-- The one call in progress gets to its end. -/
theorem call_settles {s : Session} (hs : Settling E s) {job : Job} (hjobs : s.jobs = [job]) :
    ∃ t, Settles E s t ∧ t.jobs = [] ∧ t.active = none ∧ t.timerPending = s.timerPending := by
  have hresume : ∃ t, Settles E s t ∧ t.jobs = [job] ∧ t.active = some 0 ∧
      t.timerPending = s.timerPending := by
    cases hactive : s.active with
    | none =>
        refine ⟨{ s with active := some 0 }, settles_step (l := .resume 0)
          ⟨by simp, trivial, trivial⟩ ?_, hjobs, rfl, rfl⟩
        simp [sessionStep, hactive, hjobs]
    | some j =>
        have hj := hs.active j hactive
        rw [hjobs, List.length_singleton, Nat.lt_one_iff] at hj
        exact ⟨s, .refl s, hjobs, hj ▸ hactive, rfl⟩
  have hpublish : ∀ {t : Session}, Settles E s t → t.jobs = [.publishing] →
      t.active = some 0 → t.timerPending = s.timerPending →
      ∃ u, Settles E s u ∧ u.jobs = [] ∧ u.active = none ∧ u.timerPending = s.timerPending :=
    fun ht hjobs hactive htimer =>
      ⟨_, ht.trans (publishing_settles hjobs hactive), rfl, rfl, htimer⟩
  obtain ⟨t, ht, hjobs, hactive, htimer⟩ := hresume
  have hsettling := ht.settling hs
  cases job with
  | publishing => exact hpublish ht hjobs hactive htimer
  | analysis phase =>
      by_cases hphase : phase = .idle
      · subst hphase
        -- the call has been spawned and reads the documents first
        have hreach := hsettling.machine
        rw [machineOf_analysis hjobs] at hreach
        obtain ⟨a, ha⟩ := Option.isSome_iff_exists.mp
          (analyzeBegin_isSome E t.docs (reachable_graphOK hreach).current.acyclic)
        have hstart : step E ⟨t.analyzer, .idle⟩ (.start t.docs) = some ⟨a, .loop 0⟩ := by
          simp only [step, ha, Option.map_some]
        have hfirst : Settles E t { t with analyzer := a, jobs := [.analysis (.loop 0)] } :=
          settles_step (l := .advance (.start t.docs)) ⟨by simp, trivial, trivial⟩
            (sessionStep_advance (l := .start t.docs) hjobs hactive
              (List.isPerm_iff.mpr (.refl _)) rfl hstart)
        obtain ⟨u, hu, hujobs, huactive, hutimer⟩ :=
          analysis_settles (hfirst.settling hsettling) rfl hactive (by simp)
        exact hpublish (ht.trans (hfirst.trans hu)) hujobs huactive (hutimer.trans htimer)
      · obtain ⟨u, hu, hujobs, huactive, hutimer⟩ :=
          analysis_settles hsettling hjobs hactive hphase
        exact hpublish (ht.trans hu) hujobs huactive (hutimer.trans htimer)
  | reading i ctx filename =>
      -- the file operations fail, and the assembler goes on without the file
      have hfirst : Settles E t { t with jobs := [.analysis (.asm i ctx)] } := by
        refine settles_step (l := .fileRead none) ⟨by simp, trivial, trivial⟩ ?_
        simp only [sessionStep, hactive, hjobs, List.getElem?_cons_zero, List.set_cons_zero]
        rfl
      obtain ⟨u, hu, hujobs, huactive, hutimer⟩ :=
        analysis_settles (hfirst.settling hsettling) rfl hactive (by simp)
      exact hpublish (ht.trans (hfirst.trans hu)) hujobs huactive (hutimer.trans htimer)

/-! ## The session -/

theorem session_settles {s : Session} (hs : Settling E s) :
    ∃ t, Settles E s t ∧ t.jobs = [] ∧ t.timerPending = false := by
  have hcall : ∃ t, Settles E s t ∧ t.jobs = [] ∧ t.active = none := by
    match hjobs : s.jobs, hs.one with
    | [], _ =>
        refine ⟨s, .refl s, hjobs, ?_⟩
        cases hactive : s.active with
        | none => rfl
        | some j =>
            have hj := hs.active j hactive
            rw [hjobs] at hj
            exact absurd hj (Nat.not_lt_zero j)
    | [job], _ =>
        obtain ⟨t, ht, hjobs, hactive, -⟩ := call_settles hs hjobs
        exact ⟨t, ht, hjobs, hactive⟩
    | job :: job' :: rest, hone =>
        unfold AtMostOne at hone
        rw [hjobs, List.length_cons, List.length_cons] at hone
        omega
  obtain ⟨t, ht, hjobs, hactive⟩ := hcall
  cases htimer : t.timerPending with
  | false => exact ⟨t, ht, hjobs, htimer⟩
  | true =>
      have hexpire : Settles E t
          { t with timerPending := false, jobs := [.analysis .idle], active := some 0 } := by
        refine settles_step (l := .expire) ⟨by simp, hjobs, trivial⟩ ?_
        simp [sessionStep, hactive, htimer, hjobs]
      obtain ⟨u, hu, hujobs, -, hutimer⟩ :=
        call_settles (hexpire.settling (ht.settling hs)) rfl
      exact ⟨u, ht.trans (hexpire.trans hu), hujobs, hutimer⟩

/-- Steps without a message do not stop the timer. -/
theorem stoppedSince_of_append {past ks : List SessionLabel} (h : StoppedSince E (past ++ ks))
    (hks : ∀ l ∈ ks, ∀ msg, l ≠ .message msg) : StoppedSince E past := by
  obtain ⟨pre, l, post, s, heq, hrun, hstops, hpost⟩ := h
  have hlabel : l ∉ ks := by
    intro hl
    cases l with
    | message msg => exact hks _ hl msg rfl
    | expire => exact hstops
    | advance l => exact hstops
    | readFile filename => exact hstops
    | fileRead disk => exact hstops
    | send => exact hstops
    | resume j => exact hstops
    | finished => exact hstops
  rcases List.append_eq_append_iff.mp heq with ⟨as, rfl, rfl⟩ | ⟨bs, rfl, hbs⟩
  · exact absurd (List.mem_append_right as List.mem_cons_self) hlabel
  · cases bs with
    | nil =>
        rw [List.nil_append] at hbs
        exact absurd (hbs ▸ List.mem_cons_self) hlabel
    | cons b bs =>
        obtain ⟨rfl, rfl⟩ := List.cons.inj hbs
        exact ⟨pre, l, bs, s, rfl, hrun, hstops,
          fun l' hl' => hpost l' (List.mem_append_left ks hl')⟩

/-- From every state that a session reaches it can settle without a further message: the documents
    stay as they are, nothing is in progress or pending, and when no message has stopped the timer
    since the last edit, the index is that of the documents. -/
theorem session_can_settle {ls : List SessionLabel} {s : Session}
    (h : run (sessionStep E) Session.init ls = some s)
    (hidle : Meets (sessionStep E) ExpiresIdle Session.init ls)
    (hrefs : Meets (sessionStep E) SessionRefers Session.init ls) :
    ∃ ks t, run (sessionStep E) s ks = some t ∧ (∀ l ∈ ks, ∀ msg, l ≠ .message msg) ∧
      t.docs = s.docs ∧ t.jobs = [] ∧ t.timerPending = false ∧
      (¬ StoppedSince E ls → UpToDate E t) := by
  have hboth : Meets (sessionStep E) (fun s l => ExpiresIdle s l ∧ SessionRefers s l)
      Session.init ls := fun pre l hpre u hu => ⟨hidle pre l hpre u hu, hrefs pre l hpre u hu⟩
  have hs : Settling E s :=
    run_inv_of_meets (fun _ _ _ hs hl h => Settling.next hs hl.1 hl.2 h) (settling_init E) hboth h
  obtain ⟨t, ht, hjobs, htimer⟩ := session_settles hs
  have hdocs := ht.docs
  obtain ⟨ks, hrun, hks⟩ := ht
  have hown : ∀ l ∈ ks, ∀ msg, l ≠ .message msg := by
    have hmeets : Meets (sessionStep E) (fun _ l => ∀ msg, l ≠ .message msg) s ks :=
      fun pre l hpre u hu => (hks pre l hpre u hu).own
    exact (meets_iff_forall_mem (hrun ▸ rfl)).mp hmeets
  refine ⟨ks, t, hrun, hown, hdocs, hjobs, htimer, fun hno => ?_⟩
  have hall : run (sessionStep E) Session.init (ls ++ ks) = some t := by
    rw [run_append, h, Option.bind_some, hrun]
  have hmeets := hidle.append h fun pre l hpre u hu => (hks pre l hpre u hu).idle
  rcases (oneAtATime_of_meets hmeets hall).fresh with hfresh | hpending | ⟨j, -, hj⟩ | hstopped
  · exact hfresh
  · rw [htimer] at hpending
    cases hpending
  · rw [hjobs, List.getElem?_nil] at hj
    cases hj
  · exact absurd (stoppedSince_of_append hstopped hown) hno

/-- `a` is changed while its analysis reads `b`. -/
def changedWhileReading : List SessionLabel := changedDuringRead.take 7

theorem session_can_settle_changed :
    ∃ s, run (sessionStep asciiEnv) Session.init changedWhileReading = some s ∧
      s.jobs.length = 1 ∧ s.timerPending = true ∧
      ∃ ks t, run (sessionStep asciiEnv) s ks = some t ∧ t.docs = s.docs ∧ t.jobs = [] ∧
        UpToDate asciiEnv t := by
  have hrun : (run (sessionStep asciiEnv) Session.init changedWhileReading).map
      (fun s => (s.jobs.length, s.timerPending)) = some (1, true) := by decide
  obtain ⟨s, hs, hout⟩ := Option.map_eq_some_iff.mp hrun
  obtain ⟨hlen, htimer⟩ := Prod.mk.injEq _ _ _ _ |>.mp hout
  obtain ⟨ks, t, hks, -, hdocs, hjobs, -, hfresh⟩ :=
    session_can_settle hs (by decide) (by decide)
  exact ⟨s, hs, hlen, htimer, ks, t, hks, hdocs, hjobs, hfresh (not_stoppedSince (by decide))⟩

end BuxnLs.Analysis
