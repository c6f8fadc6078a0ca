/-
  Related information. Both report functions take the related place from the report's own region,
  and only when the two file names are one string in memory. `SavedReport` holds what a report
  saves beside the place it points to; the entries of a run, published in some order, point to
  these places exactly when every report has them where it is itself (`related_published_iff`).
-/
import BuxnLs.Analysis.LineCache
import BuxnLs.Analysis.Reports

namespace BuxnLs.Analysis

open BuxnLs.Lib BuxnLs.Model

/-! ## Two lists of rows -/

/-- Where one predicate implies another and holds as often, they agree. -/
theorem imp_of_countP_eq {α : Type} {p q : α → Bool} {l : List α}
    (hpq : ∀ a ∈ l, p a = true → q a = true) (h : l.countP p = l.countP q) :
    ∀ a ∈ l, q a = true → p a = true := by
  induction l with
  | nil => intro a ha; cases ha
  | cons a l ih =>
      rw [List.forall_mem_cons] at hpq
      have hle : l.countP p ≤ l.countP q := List.countP_mono_left hpq.2
      have hhead := hpq.1
      rw [List.countP_cons, List.countP_cons] at h
      have heq : l.countP p = l.countP q ∧ (q a = true → p a = true) := by
        by_cases hp : p a = true
        · rw [if_pos hp, if_pos (hhead hp)] at h
          exact ⟨by omega, fun _ => hp⟩
        · by_cases hq : q a = true
          · rw [if_neg hp, if_pos hq] at h
            omega
          · rw [if_neg hp, if_neg hq] at h
            exact ⟨by omega, fun hc => absurd hc hq⟩
      rw [List.forall_mem_cons]
      exact ⟨heq.2, ih hpq.2 heq.1⟩

/-- Rows `f` and rows `g` of the same list, where `g` has all marks that `f` has. Up to order
    they are the same rows only when each is, if a marked row that occurs as a row `g` is the row
    `g` of its own element. -/
theorem map_perm_map_iff {α β : Type} {f g : α → β} (marked : β → Bool) {l : List α}
    (hgain : ∀ a ∈ l, marked (f a) = true → marked (g a) = true)
    (hkeep : ∀ a ∈ l, marked (g a) = false → f a = g a)
    (hown : ∀ a ∈ l, ∀ b ∈ l, marked (f a) = true → f b = g a → f a = g a) :
    (l.map f).Perm (l.map g) ↔ ∀ a ∈ l, f a = g a := by
  constructor
  · intro hperm
    have hcount := hperm.countP_eq marked
    rw [List.countP_map, List.countP_map] at hcount
    have hmarked := imp_of_countP_eq (p := marked ∘ f) (q := marked ∘ g) hgain hcount
    intro a ha
    cases hg : marked (g a) with
    | false => exact hkeep a ha hg
    | true =>
        obtain ⟨b, hb, he⟩ := List.mem_map.mp (hperm.mem_iff.mpr (List.mem_map_of_mem ha))
        exact hown a ha b hb (hmarked a ha hg) he
  · intro hall
    rw [List.map_congr_left hall]

/-! ## What a report saves -/

/-- The second place of a report, when it is in the file of the report. -/
def relatedPlace (r : Report) : Option (Str × AsmRegion) :=
  r.related.filter fun p => p.2.filename.chars = r.region.filename.chars

/-- A diagnostic with the file it is about and the related place that it should point to. -/
structure SavedReport where
  diagnostic : Diagnostic
  file : Str
  place : Option (Str × Range)

/-- What the report functions save, starting from the diagnostic `base`. -/
def saveReport (E : Env) (a : Analyzer) (type : ReportType) (r : Report)
    (base : Location → Diagnostic) : SavedReport where
  diagnostic := tailDiagnostic E (markReport a type r) r base
  file := r.region.filename.chars
  place := (relatedPlace r).map fun p => (p.1, (convertRegion E a p.2).2.range)

def dumpDiagnostic (E : Env) (a : Analyzer) (traceId : Int) (s : ChessState) : Diagnostic :=
  { Diagnostic.zero with
      location := (convertRegion E a s.srcRegion).2, message := stackMessage E traceId s,
      source := ascii "buxn-chess", severity := 3 }

/-- What a callback saves. -/
def savedBy (E : Env) (a : Analyzer) : Event → List SavedReport
  | .report type r =>
    if r.region.range.start.line = 0 then []
    else [saveReport E a type r (asmDiagnostic type r)]
  | .chessReport traceId type r =>
    if r.region.range.start.line = 0 ∨ type = .other then []
    else [saveReport E a type r (chessDiagnostic traceId r)]
  | .chessDeo traceId s value port =>
    if port = 0x0e ∧ value = 0x2b then
      [⟨dumpDiagnostic E a traceId s, s.srcRegion.filename.chars, none⟩]
    else []
  | _ => []

def savedAt (E : Env) (s : Server) : Label → List SavedReport
  | .event ev => savedBy E s.machine.analyzer ev
  | _ => []

/-- A callback appends the diagnostics that it saves. -/
theorem applyEvent_saved {E : Env} {p p' : Pass} {ev : Event} (h : applyEvent E p ev = some p') :
    p'.analyzer.diagnostics =
      p.analyzer.diagnostics ++ (savedBy E p.analyzer ev).map SavedReport.diagnostic := by
  have hnone : ∀ {a : Analyzer}, a.diagnostics = p.analyzer.diagnostics →
      a.diagnostics = p.analyzer.diagnostics ++ ([] : List SavedReport).map
        SavedReport.diagnostic := fun ha => by rw [ha, List.map_nil, List.append_nil]
  cases ev with
  | fopen docs filename disk =>
      cases h
      exact hnone (asmFopen_diagnostics E p docs filename disk)
  | report type r =>
      cases h
      show (asmReport E p.analyzer type r).diagnostics = _
      rw [asmReport_eq, savedBy]
      split
      · exact hnone rfl
      · rw [reportTail_diagnostics, markReport_diagnostics]
        rfl
  | putRom addr value =>
      cases h
      exact hnone rfl
  | putSymbol addr sym annos => exact hnone (asmPutSymbol_diagnostics h)
  | chessReport traceId type r =>
      cases h
      show (chessReport E p.analyzer traceId type r).diagnostics = _
      rw [chessReport_eq, savedBy]
      split
      · exact hnone rfl
      · rw [reportTail_diagnostics, markReport_diagnostics]
        rfl
  | chessDeo traceId s value port =>
      cases h
      show (chessDeo E p.analyzer traceId s value port).diagnostics = _
      unfold chessDeo
      rw [savedBy]
      split
      · exact congrArg (· ++ _) (convertRegion_linesOnly E p.analyzer s.srcRegion).diagnostics
      · exact hnone rfl

/-- Each diagnostic that is saved is one image, of the file it is about. -/
theorem savedBy_file (E : Env) (chess : ReportType → Nat) (a : Analyzer) (ev : Event) :
    (savedBy E a ev).map SavedReport.file = (imageOf chess E a ev).map Image.filename := by
  cases ev with
  | report type r =>
      simp only [savedBy, imageOf]
      split <;> rfl
  | chessReport traceId type r =>
      simp only [savedBy, imageOf]
      split <;> rfl
  | chessDeo traceId s value port =>
      simp only [savedBy, imageOf]
      split <;> rfl
  | fopen docs filename disk => rfl
  | putRom addr value => rfl
  | putSymbol addr sym annos => rfl

/-! ## The related part of what is saved -/

/-- A region converts to the same place when it is asked for again. -/
theorem convertRegion_again {E : Env} {a : Analyzer} (h : CacheOK a) (region : AsmRegion) :
    (convertRegion E (convertRegion E a region).1 region).2.range =
      (convertRegion E a region).2.range := by
  have hfiles : ((convertRegion E a region).1.files.find? region.filename.chars).map
        (fun file => splitFile file.content) =
      (a.files.find? region.filename.chars).map fun file => splitFile file.content :=
    (convertRegion_linesOnly E a region).field _ fun _ => rfl
  have hafter := h.convertRegion E region
  show (convertRange E _ _ _).2 = (convertRange E a _ _).2
  rw [hafter.range, h.range, hafter.position, hafter.position, h.position, h.position, hfiles]

/-- The message that a report keeps of its related part. -/
def keptMessage (r : Report) : Option Str :=
  r.related.bind fun p => if p.2.filename.addr = r.region.filename.addr then some p.1 else none

/-- The related place of what a report saves is the place of the report. -/
structure SavesOwn (E : Env) (a : Analyzer) (r : Report) (d : Diagnostic) : Prop where
  range : d.location.range = (convertRegion E a r.region).2.range
  message : d.relatedMessage = keptMessage r
  related : d.relatedMessage ≠ none → d.relatedLocation.range = d.location.range

theorem tailDiagnostic_savesOwn {E : Env} {a : Analyzer} (h : CacheOK a) (type : ReportType)
    (r : Report) {base : Location → Diagnostic}
    (hb : ∀ location, (base location).location = location)
    (hnone : ∀ location, (base location).relatedMessage = none) :
    SavesOwn E a r (tailDiagnostic E (markReport a type r) r base) := by
  have hsame := markReport_sameText a type r
  have hmarked := h.of_sameText hsame
  have hloc := convertRegion_sameText E hsame r.region
  have hlocation : (tailDiagnostic E (markReport a type r) r base).location =
      (convertRegion E a r.region).2 :=
    (addRelated_keeps E _ r _).1.trans ((hb _).trans hloc)
  have hrange : (convertRegion E (convertRegion E (markReport a type r) r.region).1
      r.region).2.range = (convertRegion E a r.region).2.range := by
    rw [convertRegion_again hmarked, hloc]
  refine ⟨by rw [hlocation], ?_, ?_⟩
  · unfold tailDiagnostic addRelated keptMessage
    cases hr : r.related with
    | none => exact hnone _
    | some p =>
        obtain ⟨message, region⟩ := p
        dsimp only
        rw [Option.bind_some]
        dsimp only
        split
        · rfl
        · exact hnone _
  · rw [hlocation, ← hrange]
    unfold tailDiagnostic addRelated
    cases hr : r.related with
    | none =>
        intro hsome
        exact absurd (hnone _) hsome
    | some p =>
        obtain ⟨message, region⟩ := p
        dsimp only
        split
        · intro _
          rfl
        · intro hsome
          exact absurd (hnone _) hsome

/-! ## Entries -/

namespace SavedReport

variable (E : Env) (x : SavedReport)

/-- The entry that is published, with its URI. -/
def published : Str × DiagnosticEntry :=
  (uriFor E x.file, entryOf (uriFor E x.file) x.diagnostic)

/-- The same entry with a related part that points to the related place. -/
def pointing : Str × DiagnosticEntry :=
  match x.place with
  | none => x.published E
  | some p =>
    (uriFor E x.file,
      { entryOf (uriFor E x.file) x.diagnostic with related := some ⟨p.1, uriFor E x.file, p.2⟩ })

/-- What the related part has to do with the rest, whatever the report. -/
structure Plain : Prop where
  own : x.diagnostic.relatedMessage ≠ none →
    x.diagnostic.relatedLocation.range = x.diagnostic.location.range
  message : ∀ p ∈ x.place, ∀ message ∈ x.diagnostic.relatedMessage, message = p.1

variable {E x}

theorem entry_eq_iff (e : DiagnosticEntry) (related : Option RelatedInformation) :
    e = { e with related := related } ↔ e.related = related := by
  cases e
  simp

theorem published_eq_pointing_iff :
    x.published E = x.pointing E ↔ ∀ p ∈ x.place,
      (x.published E).2.related = some ⟨p.1, uriFor E x.file, p.2⟩ := by
  unfold pointing
  cases x.place with
  | none => simp
  | some p =>
      dsimp only [published]
      rw [Prod.mk.injEq, entry_eq_iff]
      simp

/-- A related part, as it is published. -/
theorem Plain.related (h : x.Plain) {information : RelatedInformation}
    (hi : (x.published E).2.related = some information) :
    x.diagnostic.relatedMessage = some information.message ∧
      information.uri = uriFor E x.file ∧ information.range = (x.published E).2.range := by
  obtain ⟨message, hm, rfl⟩ := Option.map_eq_some_iff.mp hi
  exact ⟨hm, rfl, h.own (by rw [hm]; exact Option.some_ne_none _)⟩

end SavedReport

/-- Up to order the entries point to the related places only when each does. -/
theorem published_perm_pointing_iff {E : Env} {xs : List SavedReport} (h : ∀ x ∈ xs, x.Plain) :
    (xs.map (SavedReport.published E)).Perm (xs.map (SavedReport.pointing E)) ↔
      ∀ x ∈ xs, x.published E = x.pointing E := by
  have hplace : ∀ x : SavedReport, x.place = none → x.published E = x.pointing E := by
    intro x hx
    unfold SavedReport.pointing
    rw [hx]
  have hpointing : ∀ x : SavedReport, ∀ p, x.place = some p →
      x.pointing E = (uriFor E x.file, { entryOf (uriFor E x.file) x.diagnostic with
        related := some ⟨p.1, uriFor E x.file, p.2⟩ }) := by
    intro x p hx
    unfold SavedReport.pointing
    rw [hx]
  refine map_perm_map_iff (fun row => row.2.related.isSome) ?_ ?_ ?_
  · intro x _ hm
    cases hx : x.place with
    | none => rwa [← hplace x hx]
    | some p => rw [hpointing x p hx]; rfl
  · intro x _ hm
    cases hx : x.place with
    | none => exact hplace x hx
    | some p =>
        rw [hpointing x p hx] at hm
        cases hm
  · intro x hx y hy hm he
    apply SavedReport.published_eq_pointing_iff.mpr
    intro p hp
    rw [hpointing x p hp] at he
    -- the entry of `y` has the range of `x` and the related range of a report that is there
    have hyrel : (y.published E).2.related = some ⟨p.1, uriFor E x.file, p.2⟩ := by rw [he]
    have hyrange : (y.published E).2.range = (x.published E).2.range := by rw [he]; rfl
    obtain ⟨-, -, hrange⟩ := (h y hy).related hyrel
    obtain ⟨information, hi⟩ := Option.isSome_iff_exists.mp hm
    obtain ⟨hmessage, huri, hown⟩ := (h x hx).related hi
    have hsame := (h x hx).message p hp _ hmessage
    rw [hi]
    congr 1
    cases information
    simp only [RelatedInformation.mk.injEq]
    exact ⟨hsame, huri, hown.trans (hyrange.symm.trans hrange.symm)⟩

/-! ## Reports -/

/-- A related place in the file of the report is where the report itself is, and has the same
    string for a file name. -/
def PointsHere (E : Env) (a : Analyzer) (r : Report) : Prop :=
  ∀ p ∈ relatedPlace r, p.2.filename.addr = r.region.filename.addr ∧
    (convertRegion E a p.2).2.range = (convertRegion E a r.region).2.range

instance (E : Env) (a : Analyzer) (r : Report) : Decidable (PointsHere E a r) :=
  inferInstanceAs (Decidable (∀ p ∈ relatedPlace r, _))

theorem related_of_relatedPlace {r : Report} {p : Str × AsmRegion} (h : p ∈ relatedPlace r) :
    r.related = some p :=
  (Option.filter_eq_some_iff.mp h).1

theorem saveReport_plain {E : Env} {a : Analyzer} (h : CacheOK a) (type : ReportType)
    (r : Report) {base : Location → Diagnostic}
    (hb : ∀ location, (base location).location = location)
    (hnone : ∀ location, (base location).relatedMessage = none) :
    (saveReport E a type r base).Plain := by
  have hown := tailDiagnostic_savesOwn (E := E) h type r hb hnone
  refine ⟨hown.related, ?_⟩
  intro p hp message hm
  obtain ⟨q, hq, rfl⟩ := Option.map_eq_some_iff.mp hp
  rw [show (saveReport E a type r base).diagnostic.relatedMessage = keptMessage r from
    hown.message, keptMessage, related_of_relatedPlace hq, Option.bind_some] at hm
  split at hm
  · exact (Option.some.inj hm).symm
  · cases hm

/-- The entry of a report points to its related place exactly when this is its own place. -/
theorem saveReport_points_iff {E : Env} {a : Analyzer} (h : CacheOK a) (type : ReportType)
    (r : Report) {base : Location → Diagnostic}
    (hb : ∀ location, (base location).location = location)
    (hnone : ∀ location, (base location).relatedMessage = none) :
    (saveReport E a type r base).published E = (saveReport E a type r base).pointing E ↔
      PointsHere E a r := by
  obtain ⟨hrange, hmessage, hrelated⟩ := tailDiagnostic_savesOwn (E := E) h type r hb hnone
  rw [SavedReport.published_eq_pointing_iff]
  show (∀ p ∈ (relatedPlace r).map fun p => (p.1, (convertRegion E a p.2).2.range),
    (tailDiagnostic E (markReport a type r) r base).relatedMessage.map _ = _) ↔ _
  rw [hmessage, Option.forall_mem_map]
  refine forall₂_congr fun p hp => ?_
  rw [hmessage, hrange] at hrelated
  by_cases haddr : p.2.filename.addr = r.region.filename.addr
  · have hkept : keptMessage r = some p.1 := by
      rw [keptMessage, related_of_relatedPlace hp, Option.bind_some, if_pos haddr]
    have hplace : (saveReport E a type r base).diagnostic.relatedLocation.range =
        (convertRegion E a r.region).2.range :=
      hrelated (by rw [hkept]; exact Option.some_ne_none _)
    rw [hkept, Option.map_some, hplace]
    simp [haddr, eq_comm]
  · have hkept : keptMessage r = none := by
      rw [keptMessage, related_of_relatedPlace hp, Option.bind_some, if_neg haddr]
    rw [hkept, Option.map_none]
    simp [haddr]

/-- The report of an event, when it is saved. -/
def reportOf : Event → Option Report
  | .report _ r => if r.region.range.start.line = 0 then none else some r
  | .chessReport _ type r =>
    if r.region.range.start.line = 0 ∨ type = .other then none else some r
  | _ => none

theorem savedBy_plain {E : Env} {a : Analyzer} (h : CacheOK a) (ev : Event) :
    ∀ x ∈ savedBy E a ev, x.Plain := by
  have hnil : ∀ x ∈ ([] : List SavedReport), x.Plain := fun x hx => absurd hx List.not_mem_nil
  cases ev with
  | report type r =>
      rw [savedBy]
      split
      · exact hnil
      · intro x hx
        rw [List.mem_singleton.mp hx]
        exact saveReport_plain h type r (fun _ => rfl) fun _ => rfl
  | chessReport traceId type r =>
      rw [savedBy]
      split
      · exact hnil
      · intro x hx
        rw [List.mem_singleton.mp hx]
        exact saveReport_plain h type r (fun _ => rfl) fun _ => rfl
  | chessDeo traceId s value port =>
      rw [savedBy]
      split
      · intro x hx
        rw [List.mem_singleton.mp hx]
        exact ⟨fun hne => absurd rfl hne, fun p hp => by cases hp⟩
      · exact hnil
  | fopen docs filename disk => exact hnil
  | putRom addr value => exact hnil
  | putSymbol addr sym annos => exact hnil

theorem savedBy_points_iff {E : Env} {a : Analyzer} (h : CacheOK a) (ev : Event) :
    (∀ x ∈ savedBy E a ev, x.published E = x.pointing E) ↔
      ∀ r ∈ reportOf ev, PointsHere E a r := by
  cases ev with
  | report type r =>
      rw [savedBy, reportOf]
      split
      · simp
      · rw [List.forall_mem_singleton, saveReport_points_iff h type r (fun _ => rfl) fun _ => rfl]
        simp
  | chessReport traceId type r =>
      rw [savedBy, reportOf]
      split
      · simp
      · rw [List.forall_mem_singleton, saveReport_points_iff h type r (fun _ => rfl) fun _ => rfl]
        simp
  | chessDeo traceId s value port =>
      rw [savedBy]
      refine iff_of_true ?_ fun r hr => by cases hr
      split
      · rw [List.forall_mem_singleton]
        rfl
      · exact fun x hx => absurd hx List.not_mem_nil
  | fopen docs filename disk => simp [savedBy, reportOf]
  | putRom addr value => simp [savedBy, reportOf]
  | putSymbol addr sym annos => simp [savedBy, reportOf]

/-! ## Runs -/

theorem step_saved {E : Env} {ok : Nat → Bool} {s t : Server} {l : Label}
    {xs : List SavedReport} (hl : inner l = true)
    (h : s.machine.analyzer.diagnostics = xs.map SavedReport.diagnostic)
    (hst : serverStep E ok s l = some t) :
    t.machine.analyzer.diagnostics = (xs ++ savedAt E s l).map SavedReport.diagnostic := by
  obtain ⟨m, hm, ⟨rfl, -⟩ | ⟨-, rfl⟩⟩ := serverStep_cases hst
  · cases hl
  rw [List.map_append, ← h]
  show m.analyzer.diagnostics = _
  have hsame : s.machine.analyzer.diagnostics =
      s.machine.analyzer.diagnostics ++ ([] : List SavedReport).map SavedReport.diagnostic := by
    rw [List.map_nil, List.append_nil]
  cases step_cases hm with
  | start _ _ => cases hl
  | finish _ _ => cases hl
  | skip _ _ _ => exact hsame
  | enter _ _ _ => exact hsame
  | asmDone _ _ _ => exact hsame
  | asmEnded _ _ => exact hsame
  | chessDone _ => exact hsame
  | leave _ ha => exact (leavePass_diagnostics ha).trans hsame
  | event _ hev => exact applyEvent_saved hev

theorem serverStep_cacheOK {E : Env} {ok : Nat → Bool} {s t : Server} {l : Label}
    (hs : CacheOK s.machine.analyzer) (h : serverStep E ok s l = some t) :
    CacheOK t.machine.analyzer :=
  step_cacheOK hs (serverStep_machine h)

theorem collect_saved_file (E : Env) (ok : Nat → Bool) (chess : ReportType → Nat)
    (ls : List Label) (s : Server) :
    (collect (serverStep E ok) (savedAt E) s ls).map SavedReport.file =
      (collect (serverStep E ok) (stepImages chess E) s ls).map Image.filename := by
  induction ls generalizing s with
  | nil => rfl
  | cons l ls ih =>
      simp only [collect]
      cases serverStep E ok s l with
      | none => rfl
      | some t =>
          dsimp only
          rw [List.map_append, List.map_append, ih t]
          congr 1
          cases l with
          | event ev => exact savedBy_file E chess _ ev
          | _ => rfl

/-- Under the files of the images, the diagnostics of a run are the entries that it saves. -/
theorem Shows.entries {E : Env} {c : AnalyzerCtx} (hw : CtxWF E c) {xs : List SavedReport}
    {images : List Image} (h : Shows c (xs.map SavedReport.diagnostic) images)
    (hfile : xs.map SavedReport.file = images.map Image.filename) :
    (xs.map SavedReport.diagnostic).map (entryIn c) = xs.map (SavedReport.published E) := by
  have hfiles : xs.map (fun x => fileOf c x.diagnostic) = xs.map SavedReport.file := by
    rw [hfile, ← h.images, List.map_map, List.map_map]
    rfl
  rw [List.map_map]
  refine List.map_congr_left fun x hx => ?_
  have huri : uriIn c x.diagnostic = uriFor E x.file := by
    rw [uriIn_of_known hw (h.known _ (List.mem_map_of_mem hx)),
      (List.map_inj_left.mp hfiles) x hx]
  rw [Function.comp_apply, entryIn, huri]
  rfl

/-- What a run saves of its reports. -/
abbrev savedReports (E : Env) (ok : Nat → Bool) (s : Server) (ls : List Label) :
    List SavedReport :=
  collect (serverStep E ok) (savedAt E) s ls

/-- The arrays hold one entry for each report, with a related part that points to its place. -/
def PointsRight (E : Env) (ms : List PublishDiagnostics) (xs : List SavedReport) : Prop :=
  (tagged ms).Perm (xs.map (SavedReport.pointing E))

instance (E : Env) (ms : List PublishDiagnostics) (xs : List SavedReport) :
    Decidable (PointsRight E ms xs) :=
  inferInstanceAs (Decidable (List.Perm _ _))

/-- The step saves no report whose related place is elsewhere in its file. -/
def RelatedHere (E : Env) (s : Server) : Label → Prop
  | .event ev => ∀ r ∈ reportOf ev, PointsHere E s.machine.analyzer r
  | _ => True

instance (E : Env) (s : Server) : ∀ l, Decidable (RelatedHere E s l)
  | .event ev => inferInstanceAs (Decidable (∀ r ∈ reportOf ev, _))
  | .start _ | .skip | .enter | .asmDone _ | .chessDone | .leave | .finish => isTrue trivial

theorem savedAt_points_iff {E : Env} {s : Server} (h : CacheOK s.machine.analyzer) (l : Label) :
    (∀ x ∈ savedAt E s l, x.published E = x.pointing E) ↔ RelatedHere E s l := by
  cases l with
  | event ev => exact savedBy_points_iff h ev
  | _ => exact iff_of_true (fun x hx => absurd hx List.not_mem_nil) trivial

/-- When all arrays are sent, the related information of a run points to the related places
    exactly when each of them is where its report is. -/
theorem related_published_iff (E : Env) (ok : Nat → Bool) {s₀ s₁ : Server} {docs : Docs}
    {ls : List Label} (hreach : Reachable (serverStep E ok) Server.init s₀)
    (hinner : ∀ l ∈ ls, inner l = true)
    (hrun : run (serverStep E ok) s₀ (.start docs :: (ls ++ [.finish])) = some s₁)
    (hopen : Meets (serverStep E ok) (RegionsOpen E) s₀ (.start docs :: (ls ++ [.finish])))
    (hok : ∀ k, ok (s₀.sends + k) = true) :
    PointsRight E (s₁.sent.drop s₀.sent.length)
        (savedReports E ok s₀ (.start docs :: (ls ++ [.finish]))) ↔
      Meets (serverStep E ok) (RelatedHere E) s₀ (.start docs :: (ls ++ [.finish])) := by
  have hcache := reachable_cacheOK (reachable_machine hreach)
  have hsome := Option.isSome_iff_exists.mpr ⟨s₁, hrun⟩
  obtain ⟨u, s, hu, hs, hfin, hstarted, hrunning⟩ :=
    wholeRun_running hreach hinner hrun hopen
  have hxs : savedReports E ok s₀ (.start docs :: (ls ++ [.finish])) = savedReports E ok u ls :=
    collect_wholeRun rfl rfl hu hs hfin
  have hstart : u.machine.analyzer.diagnostics = ([] : List SavedReport).map
      SavedReport.diagnostic :=
    List.map_eq_nil_iff.mp hstarted.shows.images
  have hmeets : Meets (serverStep E ok) (fun _ l => inner l = true) u ls :=
    (meets_iff_forall_mem (Option.isSome_iff_exists.mpr ⟨s, hs⟩)).mpr hinner
  have hdiag : s.machine.analyzer.diagnostics =
      (savedReports E ok u ls).map SavedReport.diagnostic :=
    collect_inv (P := fun s xs => s.machine.analyzer.diagnostics = xs.map SavedReport.diagnostic)
      (fun _ _ _ _ h hl hst => step_saved hl h hst) hstart hmeets hs
  have hshows := hrunning.shows
  rw [hdiag] at hshows
  have hentries := hshows.entries hrunning.machine.current
    (collect_saved_file E ok (fun _ => 0) ls u)
  rw [← hdiag] at hentries
  have hplain : ∀ x ∈ savedReports E ok s₀ (.start docs :: (ls ++ [.finish])), x.Plain := by
    refine (forall_mem_collect_iff hsome).mpr fun pre l hpre t ht => ?_
    have ht := run_inv (P := fun s => CacheOK s.machine.analyzer)
      (fun _ _ _ h hst => serverStep_cacheOK h hst) hcache ht
    cases l with
    | event ev => exact savedBy_plain ht ev
    | _ => exact fun x hx => absurd hx List.not_mem_nil
  have hpoints : (∀ x ∈ savedReports E ok s₀ (.start docs :: (ls ++ [.finish])),
      x.published E = x.pointing E) ↔
        Meets (serverStep E ok) (RelatedHere E) s₀ (.start docs :: (ls ++ [.finish])) :=
    (forall_mem_collect_iff hsome).trans (meets_congr_of_inv
      (I := fun s => CacheOK s.machine.analyzer) (fun _ _ _ h hst => serverStep_cacheOK h hst)
      (fun _ l h => savedAt_points_iff h l) hcache)
  rw [← hpoints, ← published_perm_pointing_iff hplain, PointsRight, hxs]
  rcases finish_tags hrunning hfin with ⟨-, htags⟩ | ⟨⟨k, -, hbad⟩, -⟩
  · rw [hentries] at htags
    exact ⟨fun h => htags.symm.trans h, fun h => htags.trans h⟩
  · rw [hok k] at hbad
    cases hbad

/-! ## A duplicate label -/

def duplicateDocs : Docs := Table.empty.put (ascii "a") (ascii "@x @x")

/-- An error at the second label of `a` that points to `place`. -/
def duplicateReport (place : AsmRange) : Report where
  message := ascii "Duplicated definition"
  region := ⟨⟨1, ascii "a"⟩, ⟨⟨1, 4, 3⟩, ⟨1, 6, 5⟩⟩⟩
  related := some (ascii "Previously defined here", ⟨⟨1, ascii "a"⟩, place⟩)

def duplicateRun (place : AsmRange) : List Label :=
  [.enter, .event (.fopen duplicateDocs ⟨1, ascii "a"⟩ none),
    .event (.report .error (duplicateReport place)), .asmDone false, .leave]

/-- A report whose related place is its own. -/
theorem related_published_own :
    ∃ s₁, run (serverStep asciiEnv fun _ => true) Server.init
        (.start duplicateDocs :: (duplicateRun ⟨⟨1, 4, 3⟩, ⟨1, 6, 5⟩⟩ ++ [.finish])) = some s₁ ∧
      PointsRight asciiEnv (s₁.sent.drop 0) (savedReports asciiEnv (fun _ => true) Server.init
        (.start duplicateDocs :: (duplicateRun ⟨⟨1, 4, 3⟩, ⟨1, 6, 5⟩⟩ ++ [.finish]))) := by
  have hsome : (run (serverStep asciiEnv fun _ => true) Server.init
      (.start duplicateDocs :: (duplicateRun ⟨⟨1, 4, 3⟩, ⟨1, 6, 5⟩⟩ ++ [.finish]))).isSome =
        true := by decide
  obtain ⟨s₁, hs₁⟩ := Option.isSome_iff_exists.mp hsome
  exact ⟨s₁, hs₁, (related_published_iff asciiEnv (fun _ => true) (Reachable.refl _) (by decide)
    hs₁ (by decide) fun _ => rfl).mpr (by decide)⟩

/-- The related information points to the second label instead of the first. -/
theorem related_published_fails :
    ∃ s₁, run (serverStep asciiEnv fun _ => true) Server.init
        (.start duplicateDocs :: (duplicateRun ⟨⟨1, 1, 0⟩, ⟨1, 3, 2⟩⟩ ++ [.finish])) = some s₁ ∧
      (tagged s₁.sent).map (fun e => e.2.related.map RelatedInformation.range) =
        [some ⟨⟨0, 3⟩, ⟨0, 5⟩⟩] ∧
      ¬ PointsRight asciiEnv s₁.sent (savedReports asciiEnv (fun _ => true) Server.init
        (.start duplicateDocs :: (duplicateRun ⟨⟨1, 1, 0⟩, ⟨1, 3, 2⟩⟩ ++ [.finish]))) := by
  have hsent : (run (serverStep asciiEnv fun _ => true) Server.init
      (.start duplicateDocs :: (duplicateRun ⟨⟨1, 1, 0⟩, ⟨1, 3, 2⟩⟩ ++ [.finish]))).map
        (fun s => tagged s.sent) =
        some [(ascii "file:///w/a",
          ⟨ascii "buxn-asm", ascii "Duplicated definition", 1, ⟨⟨0, 3⟩, ⟨0, 5⟩⟩,
            some ⟨ascii "Previously defined here", ascii "file:///w/a", ⟨⟨0, 3⟩, ⟨0, 5⟩⟩⟩⟩)] := by
    decide
  obtain ⟨s₁, hs₁, htags⟩ := Option.map_eq_some_iff.mp hsent
  refine ⟨s₁, hs₁, by rw [htags]; rfl, ?_⟩
  unfold PointsRight
  rw [htags]
  decide

end BuxnLs.Analysis
