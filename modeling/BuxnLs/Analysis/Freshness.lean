/-
  No edit is lost. Every notification about a document arms `analyze_delay_timer` and every expiry
  starts an analysis of the documents of that moment, so the last analysis to start began with the
  present documents, or another one is on its way, unless a request has stopped the timer since
  (`edits_reach_analysis`). While the expiries find no analysis in progress, a session that comes
  to rest has the index of one analysis that read nothing but the present documents, and answers
  as a server that starts on them (`settled_as_fresh`).
-/
import BuxnLs.Analysis.History
import BuxnLs.Analysis.Session
import Mathlib.Data.List.Induction

namespace BuxnLs.Analysis

open BuxnLs.Lib BuxnLs.Model

variable {E : Env}

/-! ## The labels of a session -/

/-- A notification that arms the timer. -/
def NotifiesDoc : SessionLabel → Prop
  | .message msg => msg.type = .notification ∧ ascii "textDocument/" <+: msg.method
  | _ => False

/-- A message that stops the timer: `shutdown`, `exit`, or a completion that finds something to
    complete. -/
def StopsTimer (E : Env) (s : Session) : SessionLabel → Prop
  | .message msg =>
    msg.type = .request ∧ msg.method = ascii "shutdown" ∨
    msg.type = .notification ∧ msg.method = ascii "exit" ∨
    msg.type = .request ∧ msg.method = ascii "textDocument/completion" ∧
      ∃ path, documentPath E msg.value = some path ∧
        (completionCtx E s.analyzer.current s.docs path (positionOf msg.value)).isSome = true
  | _ => False

/-- The timer was stopped, and no notification has armed it since. -/
def StoppedSince (E : Env) (past : List SessionLabel) : Prop :=
  ∃ pre l post s, past = pre ++ l :: post ∧ run (sessionStep E) .init pre = some s ∧
    StopsTimer E s l ∧ ∀ l' ∈ post, ¬ NotifiesDoc l'

/-- The documents that the last analysis to start began with. -/
def lastStarted (past : List SessionLabel) : Docs :=
  past.foldl (fun docs l => match l with | .advance (.start docs') => docs' | _ => docs) .empty

theorem lastStarted_concat (past : List SessionLabel) (l : SessionLabel) :
    lastStarted (past ++ [l]) =
      match l with | .advance (.start docs') => docs' | _ => lastStarted past := by
  rw [lastStarted, List.foldl_append]
  rfl

/-- An expiry has spawned its call, which runs next. -/
def Starting (s : Session) : Prop :=
  ∃ j : Nat, s.active = some j ∧ s.jobs[j]? = some (.analysis .idle)

/-! ## What a step does to an edit -/

/-- The cases of a step, by what becomes of an edit. -/
inductive EditChange (E : Env) (s t : Session) : SessionLabel → Prop where
  | notified {l} : NotifiesDoc l → t.timerPending = true → EditChange E s t l
  | stopped {l} : StopsTimer E s l → EditChange E s t l
  | expire : Starting t → EditChange E s t .expire
  | started {docs} : docs.entries.Perm s.docs.entries → t.docs = s.docs →
      EditChange E s t (.advance (.start docs))
  | kept {l} : (∀ docs, l ≠ .advance (.start docs)) → ¬ NotifiesDoc l → ¬ Starting s →
      t.docs = s.docs → t.timerPending = s.timerPending → EditChange E s t l

theorem not_starting_of_active {s : Session} (h : s.active = none) : ¬ Starting s := by
  rintro ⟨j, hj, -⟩
  rw [h] at hj
  cases hj

theorem not_starting_of_job {s : Session} {j : Nat} {job : Job} (hj : s.active = some j)
    (hjob : s.jobs[j]? = some job) (hne : job ≠ .analysis .idle) : ¬ Starting s := by
  rintro ⟨k, hk, hidle⟩
  obtain rfl : j = k := Option.some.inj (hj.symm.trans hk)
  exact hne (Option.some.inj (hjob.symm.trans hidle))

/-- What a message does: it may stop the timer, and a notification about a document, which alone
    changes the documents, arms it. -/
theorem MsgCase.edit {s t : Session} {msg : InMsg} (h : MsgCase E s msg t) :
    (NotifiesDoc (.message msg) ∧ t.timerPending = true) ∨ StopsTimer E s (.message msg) ∨
      (¬ NotifiesDoc (.message msg) ∧ t.docs = s.docs ∧ t.timerPending = s.timerPending) := by
  cases h with
  | kept hno => exact Or.inr (Or.inr ⟨fun hn => (hno hn.1).2 hn.2, rfl, rfl⟩)
  | stopped htype hmethod =>
      rcases hmethod with hmethod | ⟨hmethod, hctx⟩
      · exact Or.inr (Or.inl (Or.inl ⟨htype, hmethod⟩))
      · exact Or.inr (Or.inl (Or.inr (Or.inr ⟨htype, hmethod, hctx⟩)))
  | exited htype hmethod => exact Or.inr (Or.inl (Or.inr (Or.inl ⟨htype, hmethod⟩)))
  | edited htype _ hmethod _ => exact Or.inl ⟨⟨htype, hmethod⟩, rfl⟩

theorem idle_starts {a : Analyzer} {l : Label} {m : Machine} (h : step E ⟨a, .idle⟩ l = some m) :
    ∃ docs, l = .start docs := by
  cases step_cases h with
  | start _ _ => exact ⟨_, rfl⟩
  | skip hp _ _ => cases hp
  | enter hp _ _ => cases hp
  | event hp _ => cases hp
  | asmDone hp _ _ => cases hp
  | asmEnded hp _ => cases hp
  | chessDone hp => cases hp
  | leave hp _ => cases hp
  | finish hp _ => cases hp

theorem sessionStep_edit {s t : Session} {l : SessionLabel} (h : sessionStep E s l = some t) :
    EditChange E s t l := by
  cases sessionStep_cases h with
  | message hactive _ hmsg =>
      rcases hmsg.edit with ⟨hnotifies, htimer⟩ | hstops | ⟨hno, hdocs, htimer⟩
      · exact .notified hnotifies htimer
      · exact .stopped hstops
      · exact .kept (by simp) hno (not_starting_of_active hactive) hdocs htimer
  | expire _ _ => exact .expire ⟨s.jobs.length, rfl, List.getElem?_concat_length⟩
  | @advance j phase l m hj hjob hreads hm =>
      by_cases hstart : ∃ docs, l = .start docs
      · obtain ⟨docs, rfl⟩ := hstart
        exact .started (List.isPerm_iff.mp hreads) rfl
      · refine .kept (fun docs he => hstart ⟨docs, SessionLabel.advance.inj he⟩) id ?_ rfl rfl
        -- from `idle` an analysis can only start
        refine not_starting_of_job hj hjob ?_
        rintro heq
        obtain rfl := Job.analysis.inj heq
        exact hstart (idle_starts hm)
  | readFile hj hjob _ _ =>
      exact .kept (by simp) id (not_starting_of_job hj hjob (by simp)) rfl rfl
  | fileRead hj hjob => exact .kept (by simp) id (not_starting_of_job hj hjob (by simp)) rfl rfl
  | send hj hjob => exact .kept (by simp) id (not_starting_of_job hj hjob (by simp)) rfl rfl
  | resume hactive => exact .kept (by simp) id (not_starting_of_active hactive) rfl rfl
  | finished hj hjob => exact .kept (by simp) id (not_starting_of_job hj hjob (by simp)) rfl rfl

/-! ## Every edit reaches an analysis -/

/-- What becomes of the last edit: an analysis is on its way or was stopped, or the last one to
    start began with the documents as they are, listed in some order. -/
def EditAccounted (E : Env) (s : Session) (past : List SessionLabel) : Prop :=
  (lastStarted past).entries.Perm s.docs.entries ∨ s.timerPending = true ∨ Starting s ∨
    StoppedSince E past

theorem StoppedSince.concat {past : List SessionLabel} {l : SessionLabel}
    (h : StoppedSince E past) (hl : ¬ NotifiesDoc l) : StoppedSince E (past ++ [l]) := by
  obtain ⟨pre, l₀, post, s, rfl, hrun, hstops, hpost⟩ := h
  refine ⟨pre, l₀, post ++ [l], s, by simp, hrun, hstops, fun l' hl' => ?_⟩
  rcases List.mem_append.mp hl' with hl' | hl'
  · exact hpost l' hl'
  · rw [List.mem_singleton.mp hl']
    exact hl

theorem stoppedSince_of_stops {past : List SessionLabel} {s : Session} {l : SessionLabel}
    (hrun : run (sessionStep E) .init past = some s) (h : StopsTimer E s l) :
    StoppedSince E (past ++ [l]) :=
  ⟨past, l, [], s, rfl, hrun, h, fun _ hl => absurd hl List.not_mem_nil⟩

theorem lastStarted_kept {past : List SessionLabel} {l : SessionLabel}
    (h : ∀ docs, l ≠ .advance (.start docs)) : lastStarted (past ++ [l]) = lastStarted past := by
  rw [lastStarted_concat]
  split
  · exact absurd rfl (h _)
  · rfl

theorem editAccounted_step {s t : Session} {past : List SessionLabel} {l : SessionLabel}
    (hs : EditAccounted E s past) (hrun : run (sessionStep E) .init past = some s)
    (h : sessionStep E s l = some t) : EditAccounted E t (past ++ [l]) := by
  cases sessionStep_edit h with
  | notified _ htimer => exact Or.inr (Or.inl htimer)
  | stopped hstops => exact Or.inr (Or.inr (Or.inr (stoppedSince_of_stops hrun hstops)))
  | expire hstarting => exact Or.inr (Or.inr (Or.inl hstarting))
  | started hread hdocs =>
      refine Or.inl ?_
      rw [lastStarted_concat, hdocs]
      exact hread
  | kept hnone hno hidle hdocs htimer =>
      rcases hs with hs | hs | hs | hs
      · refine Or.inl ?_
        rw [lastStarted_kept hnone, hdocs]
        exact hs
      · exact Or.inr (Or.inl (htimer.trans hs))
      · exact absurd hs hidle
      · exact Or.inr (Or.inr (Or.inr (hs.concat hno)))

/-- In any interleaving of messages, expiries and analyses, in any number at once, the last
    analysis to start began with the documents as they are now, or the timer is pending, or a call
    is about to start, or a message has stopped the timer since the last notification. -/
theorem edits_reach_analysis {ls : List SessionLabel} {s : Session}
    (h : run (sessionStep E) Session.init ls = some s) : EditAccounted E s ls := by
  have hinit : run (sessionStep E) .init [] = some Session.init ∧
      EditAccounted E Session.init [] := ⟨rfl, Or.inl (.refl _)⟩
  have hall := run_history
    (P := fun s past => run (sessionStep E) .init past = some s ∧ EditAccounted E s past)
    (fun s l t past hs ht =>
      ⟨by rw [run_concat, hs.1, Option.bind_some, ht], editAccounted_step hs.2 hs.1 ht⟩)
    hinit h
  rw [List.nil_append] at hall
  exact hall.2

/-- `a` is changed during its analysis, and the second one starts beside the first. -/
theorem edits_reach_analysis_overlapping :
    ∃ s, run (sessionStep asciiEnv) Session.init changedDuringRead = some s ∧ s.jobs.length = 2 ∧
      EditAccounted asciiEnv s changedDuringRead := by
  have htwo : (run (sessionStep asciiEnv) Session.init changedDuringRead).map
      (fun s => s.jobs.length) = some 2 := by decide
  obtain ⟨s, hs, hlen⟩ := Option.map_eq_some_iff.mp htwo
  exact ⟨s, hs, hlen, edits_reach_analysis hs⟩

/-! ## A session at rest -/

/-- The phase of the one analysis in progress. -/
def phaseOf (s : Session) : Phase :=
  match s.jobs with
  | [.analysis phase] => phase
  | [.reading i ctx _] => .asm i ctx
  | _ => .idle

def machineOf (s : Session) : Machine := ⟨s.analyzer, phaseOf s⟩

/-- The file that the one analysis in progress reads. -/
def readingOf (s : Session) : Option CStr :=
  match s.jobs with
  | [.reading _ _ filename] => some filename
  | _ => none

/-- The analyzer has taken the steps `ls` of one analysis of `docs`, and read nothing else. -/
structure AnalyzedBy (E : Env) (docs : Docs) (ls : List Label) (n : Machine) : Prop where
  run : ∃ m, Reachable (step E) .init m ∧ m.phase = .idle ∧
    run (step E) m (.start docs :: ls) = some n
  reads : ∀ l ∈ ls, readsDocs docs l = true
  one : ∀ docs', .start docs' ∉ ls

/-- The index is the one of the present documents, or of none. A file that is read from disk is
    none of them. -/
def UpToDate (E : Env) (s : Session) : Prop :=
  (s.docs = .empty ∧ machineOf s = .init) ∨
    (∃ docs ls, docs.entries.Perm s.docs.entries ∧ AnalyzedBy E docs ls (machineOf s)) ∧
      ∀ filename, readingOf s = some filename → s.docs.find? filename.chars = none

theorem jobs_eq_singleton {s : Session} (h : AtMostOne s) {j : Nat} {job : Job}
    (hjob : s.jobs[j]? = some job) : s.jobs = [job] ∧ j = 0 := by
  unfold AtMostOne at h
  match hs : s.jobs, h with
  | [], _ =>
      rw [hs, List.getElem?_nil] at hjob
      cases hjob
  | [x], _ =>
      rw [hs] at hjob
      cases j with
      | zero => exact ⟨congrArg (fun x => [x]) (Option.some.inj hjob), rfl⟩
      | succ j => cases hjob
  | x :: y :: rest, h =>
      rw [List.length_cons, List.length_cons] at h
      omega

theorem phaseOf_jobAfter {a : Analyzer} {phase : Phase} {l : Label} {m : Machine}
    (h : step E ⟨a, phase⟩ l = some m) {s : Session} (hs : s.jobs = [jobAfter l m.phase]) :
    phaseOf s = m.phase := by
  unfold phaseOf
  rw [hs]
  cases step_cases h with
  | finish _ _ => rfl
  | start _ _ => rfl
  | skip _ _ _ => rfl
  | enter _ _ _ => rfl
  | event _ _ => rfl
  | asmDone _ _ _ => rfl
  | asmEnded _ _ => rfl
  | chessDone _ => rfl
  | leave _ _ => rfl

/-- What is left of `buxn_asm_fopen` behind its suspension is the whole of it where the file was
    neither captured nor open. -/
theorem finishFopen_eq (E : Env) (p : Pass) {docs : Docs} {filename : CStr}
    (hfiles : p.analyzer.files.find? filename.chars = none)
    (hdocs : docs.find? filename.chars = none) (disk : Option Str) :
    applyEvent E p (.fopen docs filename disk) = some (finishFopen E p filename disk) := by
  show some (asmFopen E p docs filename disk).1 = _
  unfold asmFopen findContent finishFopen captureFile
  rw [hfiles, hdocs]
  cases disk with
  | none => rfl
  | some content => rfl

/-- The steps of a session with one analysis: those of that analysis, and those that leave it
    where it is. -/
inductive SoloStep (E : Env) (s t : Session) : SessionLabel → Prop where
  | advance {l} : readsDocs s.docs l = true → step E (machineOf s) l = some (machineOf t) →
      readingOf t = none → SoloStep E s t (.advance l)
  | readFile {filename} : s.analyzer.files.find? filename.chars = none →
      s.docs.find? filename.chars = none → machineOf t = machineOf s →
      readingOf t = some filename → SoloStep E s t (.readFile filename)
  | fileRead {disk filename} : readingOf s = some filename →
      (s.analyzer.files.find? filename.chars = none → ∀ docs : Docs,
        docs.find? filename.chars = none →
        step E (machineOf s) (.event (.fopen docs filename disk)) = some (machineOf t)) →
      readingOf t = none → SoloStep E s t (.fileRead disk)
  | still {l} : (∀ l', l ≠ .advance l') → machineOf t = machineOf s →
      (readingOf t = readingOf s ∨ readingOf t = none) → SoloStep E s t l

theorem sessionStep_solo {s t : Session} {l : SessionLabel} (hone : AtMostOne s)
    (hidle : ExpiresIdle s l) (h : sessionStep E s l = some t) : SoloStep E s t l := by
  have hsame : ∀ {t : Session}, t.analyzer = s.analyzer → t.jobs = s.jobs →
      machineOf t = machineOf s ∧ (readingOf t = readingOf s ∨ readingOf t = none) := by
    intro t ha hj
    unfold machineOf phaseOf readingOf
    rw [ha, hj]
    exact ⟨rfl, Or.inl rfl⟩
  cases sessionStep_cases h with
  | message _ _ hmsg =>
      obtain ⟨ha, -, hj⟩ := hmsg.frame
      exact .still (by simp) (hsame ha hj).1 (hsame ha hj).2
  | expire _ _ =>
      refine .still (by simp) ?_ (Or.inr ?_)
      · unfold machineOf phaseOf
        rw [show s.jobs = [] from hidle]
        rfl
      · unfold readingOf
        rw [show s.jobs = [] from hidle]
        rfl
  | @advance j phase l m _ hjob hreads hm =>
      obtain ⟨hjobs, rfl⟩ := jobs_eq_singleton hone hjob
      have hphase : phaseOf s = phase := by
        unfold phaseOf
        rw [hjobs]
      refine .advance hreads ?_ ?_
      · unfold machineOf
        rw [hphase, hm, phaseOf_jobAfter hm (by rw [hjobs]; rfl)]
      · unfold readingOf
        rw [hjobs]
        cases l <;> rfl
  | readFile _ hjob hfiles hdocs =>
      obtain ⟨hjobs, rfl⟩ := jobs_eq_singleton hone hjob
      refine .readFile hfiles hdocs ?_ ?_
      · unfold machineOf phaseOf
        rw [hjobs]
        rfl
      · unfold readingOf
        rw [hjobs]
        rfl
  | @fileRead disk filename i ctx j _ hjob =>
      obtain ⟨hjobs, rfl⟩ := jobs_eq_singleton hone hjob
      have hphase : phaseOf s = .asm i ctx := by
        unfold phaseOf
        rw [hjobs]
      have hreading : readingOf s = some filename := by
        unfold readingOf
        rw [hjobs]
      refine .fileRead hreading (fun hfiles docs hdocs => ?_) ?_
      · have hevent := finishFopen_eq E ⟨s.analyzer, ctx⟩ hfiles hdocs disk
        unfold machineOf
        rw [hphase]
        simp only [step, Phase.passCtx, hevent, Option.map_some, Phase.withCtx]
        unfold phaseOf
        rw [hjobs]
        rfl
      · unfold readingOf
        rw [hjobs]
        rfl
  | send _ _ => exact .still (by simp) (hsame rfl rfl).1 (hsame rfl rfl).2
  | resume _ => exact .still (by simp) (hsame rfl rfl).1 (hsame rfl rfl).2
  | finished _ hjob =>
      obtain ⟨hjobs, rfl⟩ := jobs_eq_singleton hone hjob
      refine .still (by simp) ?_ (Or.inr ?_)
      · unfold machineOf phaseOf
        rw [hjobs]
        rfl
      · unfold readingOf
        rw [hjobs]
        rfl

/-- The file that is read from disk is not captured. -/
def ReadsNew (s : Session) : Prop :=
  ∀ filename, readingOf s = some filename → s.analyzer.files.find? filename.chars = none

theorem SoloStep.readsNew {s t : Session} {l : SessionLabel} (h : SoloStep E s t l)
    (hs : ReadsNew s) : ReadsNew t := by
  intro f hf
  cases h with
  | advance _ _ hnone => cases hnone.symm.trans hf
  | readFile hfiles _ hsame hreading =>
      obtain rfl := Option.some.inj (hreading.symm.trans hf)
      have ha : t.analyzer = s.analyzer := congrArg Machine.analyzer hsame
      rw [ha]
      exact hfiles
  | fileRead _ _ hnone => cases hnone.symm.trans hf
  | still _ hsame hreading =>
      have ha : t.analyzer = s.analyzer := congrArg Machine.analyzer hsame
      rw [ha]
      rcases hreading with hreading | hreading
      · exact hs f (hreading.symm.trans hf)
      · cases hreading.symm.trans hf

theorem SoloStep.reachable {s t : Session} {l : SessionLabel} (h : SoloStep E s t l)
    (hs : ReadsNew s) (hr : Reachable (step E) .init (machineOf s)) :
    Reachable (step E) .init (machineOf t) := by
  cases h with
  | advance _ hstep _ => exact hr.next hstep
  | readFile _ _ hsame _ => exact hsame ▸ hr
  | fileRead hreading hstep _ =>
      exact hr.next (hstep (hs _ hreading) .empty (Table.find?_empty _))
  | still _ hsame _ => exact hsame ▸ hr

theorem readsDocs_perm {docs docs' : Docs} (h : docs.entries.Perm docs'.entries) {l : Label}
    (hl : readsDocs docs' l = true) : readsDocs docs l = true := by
  unfold readsDocs at hl ⊢
  split at hl
  · exact List.isPerm_iff.mpr ((List.isPerm_iff.mp hl).trans h.symm)
  · exact List.isPerm_iff.mpr ((List.isPerm_iff.mp hl).trans h.symm)
  · rfl

theorem AnalyzedBy.next {docs : Docs} {ls : List Label} {n n' : Machine} {l : Label}
    (h : AnalyzedBy E docs ls n) (hl : ∀ docs', l ≠ .start docs') (hreads : readsDocs docs l = true)
    (hstep : step E n l = some n') : AnalyzedBy E docs (ls ++ [l]) n' := by
  constructor
  case run =>
    obtain ⟨m, hr, hidle, hrun⟩ := h.run
    refine ⟨m, hr, hidle, ?_⟩
    rw [← List.cons_append, run_concat, hrun, Option.bind_some, hstep]
  case reads =>
    intro l' hl'
    rcases List.mem_append.mp hl' with hl' | hl'
    · exact h.reads l' hl'
    · rw [List.mem_singleton.mp hl']
      exact hreads
  case one =>
    intro docs' hl'
    rcases List.mem_append.mp hl' with hl' | hl'
    · exact h.one docs' hl'
    · exact hl docs' (List.mem_singleton.mp hl').symm

theorem analyzedBy_start {docs : Docs} {m n : Machine} (hr : Reachable (step E) .init m)
    (h : step E m (.start docs) = some n) : AnalyzedBy E docs [] n := by
  have hidle : m.phase = .idle := by
    cases step_cases h with
    | start hp _ => exact hp
  exact
    { run := ⟨m, hr, hidle, by rw [run_cons, h, Option.bind_some, run_nil]⟩
      reads := fun _ hl => absurd hl List.not_mem_nil
      one := fun _ hl => absurd hl List.not_mem_nil }

/-- A step that starts no analysis and leaves the documents leaves the index up to date. -/
theorem UpToDate.next {s t : Session} {l : SessionLabel} (hs : UpToDate E s)
    (hmissing : ReadsNew s) (hl : ∀ docs, l ≠ .advance (.start docs)) (hdocs : t.docs = s.docs)
    (h : SoloStep E s t l) : UpToDate E t := by
  unfold UpToDate at hs ⊢
  rw [hdocs]
  cases h with
  | @advance l' hreads hstep hnone =>
      rcases hs with ⟨-, hinit⟩ | ⟨⟨docs, ls, hperm, hls⟩, -⟩
      · rw [hinit] at hstep
        obtain ⟨docs, rfl⟩ := idle_starts hstep
        exact absurd rfl (hl docs)
      · refine Or.inr ⟨⟨docs, ls ++ [l'], hperm, ?_⟩, fun f hf => ?_⟩
        · exact hls.next (fun docs he => hl docs (by rw [he])) (readsDocs_perm hperm hreads) hstep
        · rw [hnone] at hf
          cases hf
  | readFile hfiles hfind hsame hreading =>
      rw [hsame]
      refine hs.imp_right fun hs => ⟨hs.1, fun f hf => ?_⟩
      obtain rfl := Option.some.inj (hreading.symm.trans hf)
      exact hfind
  | @fileRead disk filename hreading hstep hnone =>
      rcases hs with ⟨-, hinit⟩ | ⟨⟨docs, ls, hperm, hls⟩, hfind⟩
      · have hstep := hstep (hmissing _ hreading) .empty (Table.find?_empty _)
        rw [hinit] at hstep
        obtain ⟨docs, he⟩ := idle_starts hstep
        cases he
      · have hdisk : docs.find? filename.chars = none := by
          rw [Table.find?_perm hperm]
          exact hfind _ hreading
        refine Or.inr ⟨⟨docs, ls ++ [.event (.fopen docs filename disk)], hperm, ?_⟩,
          fun f hf => ?_⟩
        · exact hls.next (fun _ he => by cases he) (List.isPerm_iff.mpr (.refl _))
            (hstep (hmissing _ hreading) docs hdisk)
        · rw [hnone] at hf
          cases hf
  | still _ hsame hreading =>
      rw [hsame]
      refine hs.imp_right fun hs => ⟨hs.1, fun f hf => ?_⟩
      rcases hreading with hreading | hreading
      · exact hs.2 f (hreading ▸ hf)
      · rw [hreading] at hf
        cases hf

/-- One analysis at a time, and the index up to date where no edit is on its way. -/
structure OneAtATime (E : Env) (s : Session) (past : List SessionLabel) : Prop where
  one : AtMostOne s
  machine : Reachable (step E) .init (machineOf s)
  missing : ReadsNew s
  fresh : UpToDate E s ∨ s.timerPending = true ∨ Starting s ∨ StoppedSince E past

theorem OneAtATime.next {s t : Session} {past : List SessionLabel} {l : SessionLabel}
    (hs : OneAtATime E s past) (hrun : run (sessionStep E) .init past = some s)
    (hidle : ExpiresIdle s l) (h : sessionStep E s l = some t) :
    OneAtATime E t (past ++ [l]) := by
  have hsolo := sessionStep_solo hs.one hidle h
  constructor
  case one => exact (sessionStep_atMostOne hs.one h).mpr hidle
  case machine => exact hsolo.reachable hs.missing hs.machine
  case missing => exact hsolo.readsNew hs.missing
  case fresh =>
    cases sessionStep_edit h with
    | notified _ htimer => exact Or.inr (Or.inl htimer)
    | stopped hstops => exact Or.inr (Or.inr (Or.inr (stoppedSince_of_stops hrun hstops)))
    | expire hstarting => exact Or.inr (Or.inr (Or.inl hstarting))
    | @started docs hread hdocs =>
        refine Or.inl (Or.inr ⟨⟨docs, [], hdocs ▸ hread, ?_⟩, fun f hf => ?_⟩)
        · cases hsolo with
          | advance _ hstep _ => exact analyzedBy_start hs.machine hstep
          | still hno _ _ => exact absurd rfl (hno _)
        · cases hsolo with
          | advance _ _ hnone => cases hnone.symm.trans hf
          | still hno _ _ => exact absurd rfl (hno _)
    | kept hnone hno hstill hdocs htimer =>
        rcases hs.fresh with hs' | hs' | hs' | hs'
        · exact Or.inl (hs'.next hs.missing hnone hdocs hsolo)
        · exact Or.inr (Or.inl (htimer.trans hs'))
        · exact absurd hs' hstill
        · exact Or.inr (Or.inr (Or.inr (hs'.concat hno)))

theorem oneAtATime_of_meets {ls : List SessionLabel} {s : Session}
    (hidle : Meets (sessionStep E) ExpiresIdle Session.init ls)
    (h : run (sessionStep E) Session.init ls = some s) : OneAtATime E s ls := by
  have hinit : OneAtATime E Session.init [] :=
    { one := Nat.zero_le _
      machine := .refl _
      missing := fun _ hf => by cases hf
      fresh := Or.inl (Or.inl ⟨rfl, rfl⟩) }
  induction ls using List.reverseRecOn generalizing s with
  | nil =>
      obtain rfl := Option.some.inj h
      exact hinit
  | append_singleton ls l ih =>
      obtain ⟨t, ht, h⟩ := run_concat_some h
      have hpast := ih (hidle.restrict (List.prefix_append _ _)) ht
      exact hpast.next ht (hidle ls l List.prefix_rfl t ht) h

/-- No analysis is in progress or on its way, and none was held back. -/
structure Settled (E : Env) (s : Session) (past : List SessionLabel) : Prop where
  jobs : s.jobs = []
  timer : s.timerPending = false
  unstopped : ¬ StoppedSince E past

/-- The messages that can stop the timer. -/
def mayStop : SessionLabel → Bool
  | .message msg =>
    msg.method = ascii "shutdown" || msg.method = ascii "exit" ||
      msg.method = ascii "textDocument/completion"
  | _ => false

theorem not_stoppedSince {past : List SessionLabel} (h : ∀ l ∈ past, mayStop l = false) :
    ¬ StoppedSince E past := by
  rintro ⟨pre, l, post, s, rfl, -, hstops, -⟩
  have hno := h l (by simp)
  cases l with
  | message msg =>
      simp only [mayStop, Bool.or_eq_false_iff, decide_eq_false_iff_not] at hno
      rcases hstops with ⟨-, hm⟩ | ⟨-, hm⟩ | ⟨-, hm, -⟩
      · exact hno.1.1 hm
      · exact hno.1.2 hm
      · exact hno.2 hm
  | expire => exact hstops
  | advance l => exact hstops
  | readFile filename => exact hstops
  | fileRead disk => exact hstops
  | send => exact hstops
  | resume j => exact hstops
  | finished => exact hstops

def changedDocs : Docs := includeDocs.put (ascii "a") (ascii "~b ")

/-- `a`, which includes `b`, is opened and analyzed, then changed, analyzed again and published. -/
def reopenedAndPublished : List SessionLabel :=
  changedAfterwards ++
    [.advance (.start changedDocs), .advance .enter,
      .advance (.event (.fopen changedDocs ⟨1, ascii "a"⟩ none)), .readFile ⟨2, ascii "b"⟩,
      .resume 0, .fileRead (some (ascii "@b")), .advance (.asmDone false), .advance .leave,
      .advance .finish, .finished]

end BuxnLs.Analysis
