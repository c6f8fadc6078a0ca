/-
  From the reports of a run to the published arrays. `imageOf` is what the client should see of
  one callback; `applyEvent_diagnostics` says that a callback appends exactly that to the
  diagnostics, up to the severity of a chess report, which is always zero. Together with
  `publish_cases` this settles when the published arrays are a faithful image of the reports.
-/
import BuxnLs.Analysis.Publish

namespace BuxnLs.Analysis

open BuxnLs.Lib BuxnLs.Model

/-! ## Images of reports -/

/-- What the client should see of a report. -/
structure Image where
  filename : Str
  severity : Nat
  message : Str
  range : Range
deriving DecidableEq, Repr

def imageAt (E : Env) (a : Analyzer) (region : AsmRegion) (severity : Nat) (message : Str) :
    Image :=
  ⟨region.filename.chars, severity, message, (convertRegion E a region).2.range⟩

/-- The image of a callback, with the severity that a chess report should have. -/
def imageOf (chess : ReportType → Nat) (E : Env) (a : Analyzer) : Event → List Image
  | .report type r =>
    if r.region.range.start.line = 0 then []
    else [imageAt E a r.region (reportSeverity type) r.message]
  | .chessReport traceId type r =>
    if r.region.range.start.line = 0 ∨ type = .other then []
    else [imageAt E a r.region (chess type) (chessMessage traceId r.message)]
  | .chessDeo traceId s value port =>
    if port = 0x0e ∧ value = 0x2b then [imageAt E a s.srcRegion 3 (stackMessage E traceId s)]
    else []
  | _ => []

/-- The file of a diagnostic. -/
def fileOf (c : AnalyzerCtx) (d : Diagnostic) : Str :=
  (d.location.uri.bind (c.srcs[·]?)).elim [] SrcNode.filename

def imageIn (c : AnalyzerCtx) (d : Diagnostic) : Image :=
  ⟨fileOf c d, d.severity, d.message, d.location.range⟩

/-- Where the file of its region is known, a diagnostic is known and its image names the file. -/
theorem image_of_location {E : Env} {a : Analyzer} (hw : CtxWF E a.current) {region : AsmRegion}
    {d : Diagnostic} (hd : d.location = (convertRegion E a region).2)
    (hk : (a.current.sources.find? region.filename.chars).isSome) :
    Known a.current d ∧
      imageIn a.current d = imageAt E a region d.severity d.message := by
  have hcur : (convertRange E a region.filename.chars region.range).1.current = a.current :=
    (convertRange_linesOnly E a _ region.range).current
  have huri : d.location.uri = a.current.sources.find? region.filename.chars := by
    rw [hd]
    show (convertRange E a region.filename.chars region.range).1.current.sources.find? _ = _
    rw [hcur]
  obtain ⟨id, hid⟩ := Option.isSome_iff_exists.mp hk
  obtain ⟨src, hsrc, hname⟩ := hw.sources _ id hid
  refine ⟨⟨_, (a.current.sources.mem_keys_iff _).mpr hk, huri⟩, ?_⟩
  have hfile : fileOf a.current d = region.filename.chars := by
    unfold fileOf
    rw [huri, hid, Option.bind_some, hsrc]
    exact hname
  unfold imageIn imageAt
  rw [hfile, hd]

theorem asmFopen_diagnostics (E : Env) (p : Pass) (docs : Docs) (filename : CStr)
    (disk : Option Str) :
    (asmFopen E p docs filename disk).1.analyzer.diagnostics = p.analyzer.diagnostics := by
  rcases asmFopen_moves E p docs filename disk with ⟨-, ha⟩ | ⟨content, c, -, ha⟩
  · rw [ha]
  · rw [ha, captureFile_eq]

theorem annotations_diagnostics {annos : List AnnoCall} {p p' : Pass}
    (h : annos.foldlM handleAnnotation p = some p') :
    p'.analyzer.diagnostics = p.analyzer.diagnostics := by
  refine foldlM_inv (P := fun q => q.analyzer.diagnostics = p.analyzer.diagnostics)
    (fun q q' call _ hq hs => ?_) rfl h
  obtain ⟨-, file, sem, -, ha⟩ | ⟨id, f, scope, -, -, -, ha⟩ := handleAnnotation_cases hs
  · rw [ha]
    exact hq
  · rw [ha]
    exact hq

theorem asmPutSymbol_diagnostics {E : Env} {p p' : Pass} {addr : UInt16} {sym : AsmSym}
    {annos : List AnnoCall} (h : asmPutSymbol E p addr sym annos = some p') :
    p'.analyzer.diagnostics = p.analyzer.diagnostics := by
  have hnote : ∀ (a : Analyzer) (f : Str) (file : File) (byte : Nat),
      (noteSymbolByte a f file byte).diagnostics = a.diagnostics := by
    intro a f file byte
    unfold noteSymbolByte
    split <;> rfl
  obtain ⟨-, rfl⟩ | ⟨-, q, hq, hannos⟩ := asmPutSymbol_cases h
  · rfl
  · refine (annotations_diagnostics hannos).trans ?_
    obtain ⟨-, hdef⟩ | ⟨-, refs, rfl⟩ := putSymNode_type_cases hq
    · obtain ⟨file, -, -, rfl⟩ | ⟨-, file, a, node, hput⟩ := putDefinition_cases hdef
      · exact hnote _ _ _ _
      · obtain ⟨mds, lds, ha, -⟩ := hput.analyzer
        rw [ha]
        exact hput.lines.diagnostics.trans (hnote _ _ _ _)
    · rfl

/-- What the common tail of the two report functions appends. -/
def tailDiagnostic (E : Env) (a : Analyzer) (r : Report) (base : Location → Diagnostic) :
    Diagnostic :=
  (addRelated E (convertRegion E a r.region).1 r (base (convertRegion E a r.region).2)).2

theorem reportTail_diagnostics (E : Env) (a : Analyzer) (r : Report)
    (base : Location → Diagnostic) :
    (reportTail E a r base).diagnostics = a.diagnostics ++ [tailDiagnostic E a r base] := by
  have hkeep := (addRelated_linesOnly E (convertRegion E a r.region).1 r
    (base (convertRegion E a r.region).2)).diagnostics
  rw [(convertRegion_linesOnly E a r.region).diagnostics] at hkeep
  exact congrArg (· ++ _) hkeep

theorem markReport_sameText (a : Analyzer) (type : ReportType) (r : Report) :
    SameText a (markReport a type r) := by
  unfold markReport
  split
  · exact markError_sameText a _
  · exact ⟨rfl, rfl, fun _ => rfl⟩

theorem markReport_diagnostics (a : Analyzer) (type : ReportType) (r : Report) :
    (markReport a type r).diagnostics = a.diagnostics := by
  unfold markReport markError
  split
  · split <;> rfl
  · rfl

/-- `addRelated` only fills in the related part. -/
theorem addRelated_keeps (E : Env) (a : Analyzer) (r : Report) (d : Diagnostic) :
    (addRelated E a r d).2.location = d.location ∧
      (addRelated E a r d).2.severity = d.severity ∧
      (addRelated E a r d).2.message = d.message := by
  unfold addRelated
  split
  · exact ⟨rfl, rfl, rfl⟩
  · split <;> exact ⟨rfl, rfl, rfl⟩

theorem report_diagnostics (E : Env) (a : Analyzer) (type : ReportType) (r : Report)
    (base : Location → Diagnostic) (hb : ∀ location, (base location).location = location) :
    ∃ d : Diagnostic, d.location = (convertRegion E a r.region).2 ∧
      d.severity = (base (convertRegion E a r.region).2).severity ∧
      d.message = (base (convertRegion E a r.region).2).message ∧
      (reportTail E (markReport a type r) r base).diagnostics = a.diagnostics ++ [d] := by
  have hloc := convertRegion_sameText E (markReport_sameText a type r) r.region
  refine ⟨tailDiagnostic E (markReport a type r) r base, ?_, ?_, ?_, ?_⟩
  · exact (addRelated_keeps E _ r _).1.trans ((hb _).trans hloc)
  · rw [tailDiagnostic, (addRelated_keeps E _ r _).2.1, hloc]
  · rw [tailDiagnostic, (addRelated_keeps E _ r _).2.2, hloc]
  · rw [reportTail_diagnostics, markReport_diagnostics]

/-- The file of every image is known. -/
def ImagesKnown (c : AnalyzerCtx) (images : List Image) : Prop :=
  ∀ x ∈ images, (c.sources.find? x.filename).isSome

instance (c : AnalyzerCtx) (images : List Image) : Decidable (ImagesKnown c images) :=
  inferInstanceAs (Decidable (∀ x ∈ images, _))

/-- A list of diagnostics shows exactly `images`. -/
structure Shows (c : AnalyzerCtx) (ds : List Diagnostic) (images : List Image) : Prop where
  known : ∀ d ∈ ds, Known c d
  images : ds.map (imageIn c) = images

theorem Shows.append {c : AnalyzerCtx} {ds es : List Diagnostic} {xs ys : List Image}
    (h : Shows c ds xs) (h' : Shows c es ys) : Shows c (ds ++ es) (xs ++ ys) where
  known := fun d hd => (List.mem_append.mp hd).elim (h.known d) (h'.known d)
  images := by rw [List.map_append, h.images, h'.images]

theorem shows_nil (c : AnalyzerCtx) : Shows c [] [] :=
  ⟨fun _ hd => absurd hd List.not_mem_nil, rfl⟩

theorem shows_single {E : Env} {a : Analyzer} (hw : CtxWF E a.current) {region : AsmRegion}
    {d : Diagnostic} (hd : d.location = (convertRegion E a region).2) {severity : Nat}
    {message : Str} (hs : d.severity = severity) (hm : d.message = message)
    (hk : ImagesKnown a.current [imageAt E a region severity message]) :
    Shows a.current [d] [imageAt E a region severity message] := by
  obtain ⟨hknown, himage⟩ := image_of_location hw hd (hk _ (List.mem_singleton.mpr rfl))
  refine ⟨fun e he => List.mem_singleton.mp he ▸ hknown, ?_⟩
  rw [List.map_singleton, himage, hs, hm]

/-- A callback appends the diagnostics of its image; a chess report gets the severity zero. -/
theorem applyEvent_diagnostics {E : Env} {p p' : Pass} {ev : Event} (hp : PassOK E p)
    (h : applyEvent E p ev = some p')
    (hk : ImagesKnown p.analyzer.current (imageOf (fun _ => 0) E p.analyzer ev)) :
    ∃ new, p'.analyzer.diagnostics = p.analyzer.diagnostics ++ new ∧
      Shows p.analyzer.current new (imageOf (fun _ => 0) E p.analyzer ev) := by
  have hnone : ∀ {a : Analyzer}, a.diagnostics = p.analyzer.diagnostics →
      ∃ new, a.diagnostics = p.analyzer.diagnostics ++ new ∧
        Shows p.analyzer.current new [] := fun ha => ⟨[], by rw [ha, List.append_nil], shows_nil _⟩
  cases ev with
  | fopen docs filename disk =>
      cases h
      exact hnone (asmFopen_diagnostics E p docs filename disk)
  | report type r =>
      cases h
      simp only [imageOf] at hk ⊢
      rw [asmReport_eq]
      by_cases hline : r.region.range.start.line = 0
      · rw [if_pos hline, if_pos hline]
        exact hnone rfl
      · rw [if_neg hline] at hk
        rw [if_neg hline, if_neg hline]
        obtain ⟨d, hloc, hsev, hmsg, hdiag⟩ :=
          report_diagnostics E p.analyzer type r (asmDiagnostic type r) fun _ => rfl
        exact ⟨[d], hdiag, shows_single hp.wf hloc hsev hmsg hk⟩
  | putRom addr value =>
      cases h
      exact hnone rfl
  | putSymbol addr sym annos => exact hnone (asmPutSymbol_diagnostics h)
  | chessReport traceId type r =>
      cases h
      simp only [imageOf] at hk ⊢
      rw [chessReport_eq]
      by_cases hskip : r.region.range.start.line = 0 ∨ type = .other
      · rw [if_pos hskip, if_pos hskip]
        exact hnone rfl
      · rw [if_neg hskip] at hk
        rw [if_neg hskip, if_neg hskip]
        obtain ⟨d, hloc, hsev, hmsg, hdiag⟩ :=
          report_diagnostics E p.analyzer type r (chessDiagnostic traceId r) fun _ => rfl
        exact ⟨[d], hdiag, shows_single hp.wf hloc hsev hmsg hk⟩
  | chessDeo traceId s value port =>
      cases h
      simp only [imageOf] at hk ⊢
      unfold chessDeo
      by_cases hdump : port = 0x0e ∧ value = 0x2b
      · rw [if_pos hdump] at hk
        rw [if_pos hdump, if_pos hdump]
        refine ⟨[{ Diagnostic.zero with
          location := (convertRegion E p.analyzer s.srcRegion).2
          message := stackMessage E traceId s, source := ascii "buxn-chess", severity := 3 }],
          ?_, shows_single hp.wf rfl rfl rfl hk⟩
        exact congrArg (· ++ _) (convertRegion_linesOnly E p.analyzer s.srcRegion).diagnostics
      · rw [if_neg hdump, if_neg hdump]
        exact hnone rfl

/-! ## The rest of a run -/

theorem leavePass_diagnostics {E : Env} {a a' : Analyzer} (h : leavePass E a = some a') :
    a'.diagnostics = a.diagnostics := by
  refine foldlM_inv (P := fun b => b.diagnostics = a.diagnostics) (fun b b' sym _ hb hs => ?_)
    (carryForward_carries a).diagnostics h
  obtain ⟨-, rfl⟩ | ⟨d, b₁, node, -, hm, rfl⟩ := connectReference_cases hs
  · exact hb
  · exact (makeSymNode_spec hm).1.diagnostics.trans hb

/-- The file of a known diagnostic does not change while nodes are added. -/
theorem Known.mono {E : Env} {entry : SrcId} {c c' : AnalyzerCtx} (h : CtxSteps E entry c c')
    (hw : CtxWF E c) {d : Diagnostic} (hk : Known c d) :
    Known c' d ∧ imageIn c' d = imageIn c d := by
  obtain ⟨f, id, hu, hf⟩ := hk.exists_id
  have hf' := h.find?_sources hf
  refine ⟨⟨f, (c'.sources.mem_keys_iff f).mpr (by rw [hf']; rfl), hu.trans hf'.symm⟩, ?_⟩
  obtain ⟨src, hs, hn⟩ := hw.sources f id hf
  obtain ⟨src', hs', hn'⟩ := (h.wf hw).sources f id hf'
  unfold imageIn fileOf
  rw [hu, Option.bind_some, Option.bind_some, hs, hs', Option.elim_some, Option.elim_some, hn, hn']

theorem Shows.mono {E : Env} {entry : SrcId} {c c' : AnalyzerCtx} (h : CtxSteps E entry c c')
    (hw : CtxWF E c) {ds : List Diagnostic} {xs : List Image} (hs : Shows c ds xs) :
    Shows c' ds xs where
  known := fun d hd => ((hs.known d hd).mono h hw).1
  images := by
    rw [← hs.images]
    exact List.map_congr_left fun d hd => ((hs.known d hd).mono h hw).2

/-- The steps between the start and the end of one analysis. -/
def inner : Label → Bool
  | .start _ | .finish => false
  | _ => true

/-- The images of a step, with the severity that a chess report should have. -/
def stepImages (chess : ReportType → Nat) (E : Env) (s : Server) : Label → List Image
  | .event ev => imageOf chess E s.machine.analyzer ev
  | _ => []

/-- The assembler reports about files that it has opened. -/
def RegionsOpen (E : Env) (s : Server) (l : Label) : Prop :=
  ImagesKnown s.machine.analyzer.current (stepImages reportSeverity E s l)

instance (E : Env) (s : Server) (l : Label) : Decidable (RegionsOpen E s l) :=
  inferInstanceAs (Decidable (ImagesKnown _ _))

/-- The severity of chess reports does not change how many images there are, nor their files. -/
theorem imageOf_filename (f g : ReportType → Nat) (E : Env) (a : Analyzer) (ev : Event) :
    (imageOf f E a ev).map Image.filename = (imageOf g E a ev).map Image.filename := by
  cases ev with
  | chessReport traceId type r =>
      simp only [imageOf]
      split <;> rfl
  | _ => rfl

theorem stepImages_filename (f g : ReportType → Nat) (E : Env) (s : Server) (l : Label) :
    (stepImages f E s l).map Image.filename = (stepImages g E s l).map Image.filename := by
  cases l with
  | event ev => exact imageOf_filename f g E _ ev
  | _ => rfl

theorem imagesKnown_congr {c : AnalyzerCtx} {xs ys : List Image}
    (h : xs.map Image.filename = ys.map Image.filename) (hx : ImagesKnown c xs) :
    ImagesKnown c ys := by
  intro y hy
  obtain ⟨x, hx', he⟩ := List.mem_map.mp (h ▸ List.mem_map_of_mem (f := Image.filename) hy)
  exact he ▸ hx x hx'

/-- Between two publications: nothing is sent and the diagnostics show the images so far. -/
structure Running (E : Env) (s₀ s : Server) (images : List Image) : Prop where
  machine : MachineOK E s.machine
  shows : Shows s.machine.analyzer.current s.machine.analyzer.diagnostics images
  sent : s.sent = s₀.sent
  sends : s.sends = s₀.sends

theorem step_running {E : Env} {ok : Nat → Bool} {s₀ s t : Server} {l : Label}
    {images : List Image} (h : Running E s₀ s images) (hl : inner l = true)
    (hk : RegionsOpen E s l) (hst : serverStep E ok s l = some t) :
    Running E s₀ t (images ++ stepImages (fun _ => 0) E s l) := by
  obtain ⟨m, hm, ⟨rfl, -⟩ | ⟨-, rfl⟩⟩ := serverStep_cases hst
  · cases hl
  refine ⟨step_ok h.machine hm, ?_, h.sent, h.sends⟩
  show Shows m.analyzer.current m.analyzer.diagnostics _
  have hsame : ∀ {a : Analyzer}, a = s.machine.analyzer →
      Shows a.current a.diagnostics (images ++ []) := fun ha => by
    rw [ha, List.append_nil]
    exact h.shows
  cases step_cases hm with
  | start _ _ => cases hl
  | finish _ _ => cases hl
  | skip _ _ _ => exact hsame rfl
  | enter _ _ _ =>
      show Shows _ _ (images ++ [])
      rw [List.append_nil]
      exact h.shows
  | asmDone _ _ _ => exact hsame rfl
  | asmEnded _ _ => exact hsame rfl
  | chessDone _ => exact hsame rfl
  | leave hp ha =>
      have he := leavePass_effect 0 h.machine.current (h.machine.listed (hp ▸ trivial)) ha
      show Shows _ _ (images ++ [])
      rw [leavePass_diagnostics ha, List.append_nil]
      exact h.shows.mono he.steps h.machine.current
  | event hctx hev =>
      have hpass := h.machine.pass hctx
      obtain ⟨new, hnew, hshow⟩ := applyEvent_diagnostics hpass hev
        (imagesKnown_congr (imageOf_filename reportSeverity _ E _ _) hk)
      have hp := applyEvent_effect hpass hev
      rw [hnew]
      exact (h.shows.append hshow).mono hp.effect.steps h.machine.current

theorem start_running {E : Env} {ok : Nat → Bool} {s t : Server} {docs : Docs}
    (hs : MachineOK E s.machine) (hst : serverStep E ok s (.start docs) = some t) :
    Running E s t [] := by
  obtain ⟨m, hm, ⟨he, -⟩ | ⟨-, rfl⟩⟩ := serverStep_cases hst
  · cases he
  refine ⟨step_ok hs hm, ?_, rfl, rfl⟩
  show Shows m.analyzer.current m.analyzer.diagnostics []
  cases step_cases hm with
  | start _ ha =>
      obtain ⟨-, -, -, hdiag⟩ := analyzeBegin_begun ha
      rw [hdiag]
      exact shows_nil _

/-- The inner steps of a run collect their images in the diagnostics. -/
theorem run_running {E : Env} {ok : Nat → Bool} {s₀ s t : Server} {ls : List Label}
    {images : List Image} (h : Running E s₀ s images) (hl : ∀ l ∈ ls, inner l = true)
    (hk : Meets (serverStep E ok) (RegionsOpen E) s ls)
    (hrun : run (serverStep E ok) s ls = some t) :
    Running E s₀ t
      (images ++ collect (serverStep E ok) (stepImages (fun _ => 0) E) s ls) := by
  refine collect_inv (C := fun s l => inner l = true ∧ RegionsOpen E s l)
    (P := fun s acc => Running E s₀ s acc)
    (fun s l t acc hs hC hst => step_running hs hC.1 hC.2 hst) h (fun pre l hpre u hu => ?_) hrun
  exact ⟨hl l (hpre.subset (by simp)), hk pre l hpre u hu⟩

/-! ## Faithful images -/

/-- A published entry as far as its report decides it: URI, severity, message, range. -/
abbrev Row := Str × Nat × Str × Range

def rowOf (e : Str × DiagnosticEntry) : Row := (e.1, e.2.severity, e.2.message, e.2.range)

def expectedRow (E : Env) (x : Image) : Row :=
  (uriFor E x.filename, x.severity, x.message, x.range)

/-- The arrays hold exactly one entry for each image, under the URI of its file. -/
def Faithful (E : Env) (ms : List PublishDiagnostics) (images : List Image) : Prop :=
  ((tagged ms).map rowOf).Perm (images.map (expectedRow E))

instance (E : Env) (ms : List PublishDiagnostics) (images : List Image) :
    Decidable (Faithful E ms images) :=
  inferInstanceAs (Decidable (List.Perm _ _))

theorem uriIn_of_known {E : Env} {c : AnalyzerCtx} (hw : CtxWF E c) {d : Diagnostic}
    (hk : Known c d) : uriIn c d = uriFor E (fileOf c d) := by
  obtain ⟨f, id, hu, hf⟩ := hk.exists_id
  obtain ⟨src, hs, hn⟩ := hw.sources f id hf
  unfold uriIn fileOf
  rw [hu, Option.bind_some, hs]
  exact (hw.named id src hs).2

/-- The entry of a diagnostic, with the URI it is published under. -/
def entryIn (c : AnalyzerCtx) (d : Diagnostic) : Str × DiagnosticEntry :=
  (uriIn c d, entryOf (uriIn c d) d)

theorem uriFor_injective (E : Env) : Function.Injective (uriFor E) :=
  fun _ _ h => List.append_cancel_left h

theorem Shows.arrayCount {E : Env} {a : Analyzer} {images : List Image}
    (h : Shows a.current a.diagnostics images) (hw : CtxWF E a.current) :
    arrayCount a = (images.map Image.filename).dedup.length := by
  have huris : a.diagnostics.map (uriIn a.current) =
      (images.map Image.filename).map (uriFor E) := by
    rw [← h.images, List.map_map, List.map_map]
    exact List.map_congr_left fun d hd => uriIn_of_known hw (h.known d hd)
  unfold Analysis.arrayCount
  rw [huris, List.dedup_map_of_injective (uriFor_injective E), List.length_map]

theorem Shows.perm {c : AnalyzerCtx} {ds es : List Diagnostic} {images : List Image}
    (h : Shows c ds images) (hp : es.Perm ds) :
    ∃ images', Shows c es images' ∧ images'.Perm images :=
  ⟨es.map (imageIn c), ⟨fun d hd => h.known d (hp.mem_iff.mp hd), rfl⟩,
    h.images ▸ hp.map (imageIn c)⟩

/-- No report of buxn-chess that would be published. -/
def NoChessReport (ls : List Label) : Prop :=
  ∀ traceId type r, .event (.chessReport traceId type r) ∈ ls →
    r.region.range.start.line = 0 ∨ type = .other

theorem collect_images_eq {E : Env} {ok : Nat → Bool} {ls : List Label} (h : NoChessReport ls)
    (f g : ReportType → Nat) (s : Server) :
    collect (serverStep E ok) (stepImages f E) s ls =
      collect (serverStep E ok) (stepImages g E) s ls := by
  induction ls generalizing s with
  | nil => rfl
  | cons l ls ih =>
      have htail : NoChessReport ls := fun t ty r hm => h t ty r (List.mem_cons_of_mem _ hm)
      simp only [collect]
      cases serverStep E ok s l with
      | none => rfl
      | some t =>
          dsimp only
          rw [ih htail t]
          congr 1
          cases l with
          | event ev =>
              cases ev with
              | chessReport traceId type r =>
                  have hc := h traceId type r List.mem_cons_self
                  simp only [stepImages, imageOf, if_pos hc]
              | _ => rfl
          | _ => rfl

/-- A chess report leaves an image without a severity among the actual ones. -/
theorem exists_zero_severity {E : Env} {ok : Nat → Bool} {ls : List Label} {s t : Server}
    (hrun : run (serverStep E ok) s ls = some t) (h : ¬ NoChessReport ls) :
    ∃ x ∈ collect (serverStep E ok) (stepImages (fun _ => 0) E) s ls, x.severity = 0 := by
  unfold NoChessReport at h
  push Not at h
  obtain ⟨traceId, type, r, hmem, hline, htype⟩ := h
  obtain ⟨pre, post, rfl⟩ := List.append_of_mem hmem
  obtain ⟨u, hu, -⟩ : ∃ u, run (serverStep E ok) s pre = some u ∧
      run (serverStep E ok) u (.event (.chessReport traceId type r) :: post) = some t := by
    rwa [run_append, Option.bind_eq_some_iff] at hrun
  refine ⟨imageAt E u.machine.analyzer r.region 0 (chessMessage traceId r.message), ?_, rfl⟩
  refine (mem_collect hrun).mpr
    ⟨pre, .event (.chessReport traceId type r), by simp, u, hu, ?_⟩
  simp only [stepImages, imageOf, if_neg (not_or.mpr ⟨hline, htype⟩), List.mem_singleton]

theorem imageOf_severity_pos (E : Env) (a : Analyzer) (ev : Event) :
    ∀ x ∈ imageOf reportSeverity E a ev, x.severity ≠ 0 := by
  have hpos : ∀ type, reportSeverity type ≠ 0 := fun type => by cases type <;> decide
  intro x hx
  cases ev with
  | report type r =>
      simp only [imageOf] at hx
      split at hx
      · cases hx
      · rw [List.mem_singleton.mp hx]
        exact hpos type
  | chessReport traceId type r =>
      simp only [imageOf] at hx
      split at hx
      · cases hx
      · rw [List.mem_singleton.mp hx]
        exact hpos type
  | chessDeo traceId s value port =>
      simp only [imageOf] at hx
      split at hx
      · rw [List.mem_singleton.mp hx]
        exact Nat.succ_ne_zero 2
      · cases hx
  | fopen _ _ _ => cases hx
  | putRom _ _ => cases hx
  | putSymbol _ _ _ => cases hx

theorem collect_filename (E : Env) (ok : Nat → Bool) (f g : ReportType → Nat) (ls : List Label)
    (s : Server) :
    (collect (serverStep E ok) (stepImages f E) s ls).map Image.filename =
      (collect (serverStep E ok) (stepImages g E) s ls).map Image.filename := by
  induction ls generalizing s with
  | nil => rfl
  | cons l ls ih =>
      simp only [collect]
      cases serverStep E ok s l with
      | none => rfl
      | some t =>
          dsimp only
          rw [List.map_append, List.map_append, stepImages_filename f g, ih t]

theorem publishLoop_machine {ok : Nat → Bool} {c : AnalyzerCtx} {ds : List Diagnostic}
    {last : Option SrcId} {msg msg' : Option PublishDiagnostics} {s s' : Server}
    (h : publishLoop ok c ds last msg s = some (s', msg')) : s'.machine = s.machine := by
  induction ds generalizing last msg s with
  | nil =>
      cases h
      rfl
  | cons d ds ih =>
      unfold publishLoop at h
      split at h
      · split at h
        · cases h
        · dsimp only at h
          split at h
          · have hm := ih h
            exact hm
          · split at h
            · rename_i t heq
              refine (ih h).trans ?_
              rw [show t = _ from (congrArg Prod.fst heq).symm]
              rfl
            · rename_i t heq
              cases h
              rw [show s' = _ from (congrArg Prod.fst heq).symm]
              rfl
      · exact ih h

theorem publish_machine {ok : Nat → Bool} {s s' : Server} (h : publish ok s = some s') :
    s'.machine = s.machine := by
  unfold publish at h
  obtain ⟨⟨t, msg⟩, ht, rfl⟩ := Option.map_eq_some_iff.mp h
  obtain ⟨cleared, sends, he, -⟩ := clearUris_spec ok
    (msg.elim t fun m => (t.endMsg ok m).1).previouslyDiagnosed.keys
    (msg.elim t fun m => (t.endMsg ok m).1)
  dsimp only
  rw [he]
  refine Eq.trans ?_ (publishLoop_machine ht)
  cases msg <;> rfl

/-- The analysis of a server takes the steps of the machine. -/
theorem serverStep_machine {E : Env} {ok : Nat → Bool} {s t : Server} {l : Label}
    (h : serverStep E ok s l = some t) : step E s.machine l = some t.machine := by
  obtain ⟨m, hm, ⟨-, hpub⟩ | ⟨-, rfl⟩⟩ := serverStep_cases h
  · rw [publish_machine hpub]
    exact hm
  · exact hm

theorem reachable_machine {E : Env} {ok : Nat → Bool} {s : Server}
    (h : Reachable (serverStep E ok) Server.init s) : Reachable (step E) Machine.init s.machine :=
  h.map (f := Server.machine) fun _ _ _ hs => serverStep_machine hs

/-- A whole run of a reachable server: its first step, the inner steps, its last step. -/
theorem wholeRun_running {E : Env} {ok : Nat → Bool} {s₀ s₁ : Server} {docs : Docs}
    {ls : List Label} (hreach : Reachable (serverStep E ok) Server.init s₀)
    (hinner : ∀ l ∈ ls, inner l = true)
    (hrun : run (serverStep E ok) s₀ (.start docs :: (ls ++ [.finish])) = some s₁)
    (hopen : Meets (serverStep E ok) (RegionsOpen E) s₀ (.start docs :: (ls ++ [.finish]))) :
    ∃ u s, serverStep E ok s₀ (.start docs) = some u ∧ run (serverStep E ok) u ls = some s ∧
      serverStep E ok s .finish = some s₁ ∧ Running E s₀ u [] ∧
      Running E s₀ s (collect (serverStep E ok) (stepImages (fun _ => 0) E) u ls) := by
  obtain ⟨u, hu, hrest⟩ := run_cons_some hrun
  obtain ⟨s, hs, hfin⟩ := run_concat_some hrest
  have hstart := start_running (reachable_ok (reachable_machine hreach)) hu
  exact ⟨u, s, hu, hs, hfin, hstart, run_running hstart hinner
    ((hopen.tail hu).restrict (List.prefix_append _ _)) hs⟩

/-- What only the inner steps of a run emit. -/
theorem collect_wholeRun {β : Type} {E : Env} {ok : Nat → Bool} {s₀ u s s₁ : Server} {docs : Docs}
    {ls : List Label} {out : Server → Label → List β} (hstart : out s₀ (.start docs) = [])
    (hfinish : out s .finish = []) (hu : serverStep E ok s₀ (.start docs) = some u)
    (hs : run (serverStep E ok) u ls = some s) (hfin : serverStep E ok s .finish = some s₁) :
    collect (serverStep E ok) out s₀ (.start docs :: (ls ++ [.finish])) =
      collect (serverStep E ok) out u ls := by
  rw [collect_cons hu, collect_append hs, collect_cons hfin, hstart, hfinish]
  simp [collect]

/-- The images that the reports of a run should have. -/
abbrev expectedImages (E : Env) (ok : Nat → Bool) (s : Server) (ls : List Label) : List Image :=
  collect (serverStep E ok) (stepImages reportSeverity E) s ls

/-- The outcome of publishing: each diagnostic of the run has its entry, or entries are lost. -/
theorem finish_tags {E : Env} {ok : Nat → Bool} {s₀ s s' : Server} {images : List Image}
    (h : Running E s₀ s images) (hst : serverStep E ok s .finish = some s') :
    ((∀ k < (images.map Image.filename).dedup.length, ok (s₀.sends + k) = true) ∧
      (tagged (s'.sent.drop s₀.sent.length)).Perm
        (s.machine.analyzer.diagnostics.map (entryIn s.machine.analyzer.current))) ∨
    ((∃ k < (images.map Image.filename).dedup.length, ok (s₀.sends + k) = false) ∧
      (tagged (s'.sent.drop s₀.sent.length)).length < images.length) := by
  obtain ⟨m, hm, ⟨-, hpub⟩ | ⟨hne, -⟩⟩ := serverStep_cases hst
  swap
  · exact absurd rfl hne
  have ha := finish_analyzer hm
  have hperm : m.analyzer.diagnostics.Perm s.machine.analyzer.diagnostics := by
    rw [ha]
    exact E.qsort_perm _ _
  have hcur : m.analyzer.current = s.machine.analyzer.current := by rw [ha]; rfl
  have hp : Publishable E { s with machine := m } :=
    publishable_finish h.machine hm fun _ d hd => h.shows.known d hd
  obtain ⟨sorted, hsorted, hsame⟩ := h.shows.perm hperm
  rw [← hcur] at hsorted
  have hcount : arrayCount m.analyzer = (images.map Image.filename).dedup.length := by
    rw [hsorted.arrayCount hp.wf]
    exact ((hsame.map Image.filename).dedup).length_eq
  have hlen : m.analyzer.diagnostics.length = images.length := by
    rw [← hsame.length_eq, ← hsorted.images, List.length_map]
  obtain ⟨t, ht, ⟨hall, new, cleared, hpublished, -⟩ | ⟨hfail, rest, hsent, hlt⟩⟩ :=
    publish_cases ok hp
  · obtain rfl : t = s' := Option.some.inj (ht.symm.trans hpub)
    refine Or.inl ⟨fun k hk => ?_, ?_⟩
    · rw [← h.sends]
      exact hall k (hcount ▸ hk)
    · have htags : tagged (new ++ cleared) =
          m.analyzer.diagnostics.map (entryIn m.analyzer.current) := by
        rw [tagged_append, tagged_of_empty hpublished.empty, List.append_nil,
          hpublished.grouped.tags]
        rfl
      rw [show t.sent = s₀.sent ++ (new ++ cleared) from h.sent ▸ hpublished.sent,
        List.drop_left, htags, hcur]
      exact hperm.map _
  · obtain rfl : t = s' := Option.some.inj (ht.symm.trans hpub)
    obtain ⟨k, hk, hbad⟩ := hfail
    refine Or.inr ⟨⟨k, hcount ▸ hk, by rw [← h.sends]; exact hbad⟩, ?_⟩
    rw [show t.sent = s₀.sent ++ rest from h.sent ▸ hsent, List.drop_left, ← hlen]
    exact hlt

/-- The same in the terms of the images collected on the way. -/
theorem finish_rows {E : Env} {ok : Nat → Bool} {s₀ s s' : Server} {images : List Image}
    (h : Running E s₀ s images) (hst : serverStep E ok s .finish = some s') :
    ((∀ k < (images.map Image.filename).dedup.length, ok (s₀.sends + k) = true) ∧
      ((tagged (s'.sent.drop s₀.sent.length)).map rowOf).Perm (images.map (expectedRow E))) ∨
    ((∃ k < (images.map Image.filename).dedup.length, ok (s₀.sends + k) = false) ∧
      (tagged (s'.sent.drop s₀.sent.length)).length < images.length) := by
  refine (finish_tags h hst).imp_left fun hall => ⟨hall.1, ?_⟩
  have hrows : (s.machine.analyzer.diagnostics.map (entryIn s.machine.analyzer.current)).map
      rowOf = images.map (expectedRow E) := by
    rw [← h.shows.images, List.map_map, List.map_map]
    refine List.map_congr_left fun d hd => ?_
    show (uriIn _ d, d.severity, d.message, d.location.range) = expectedRow E (imageIn _ d)
    rw [uriIn_of_known h.machine.current (h.shows.known d hd)]
    rfl
  rw [← hrows]
  exact hall.2.map rowOf

/-- The published arrays are a faithful image of the reports of a run exactly when buxn-chess
    delivers no report to publish and every array is sent. -/
theorem published_faithful_iff (E : Env) (ok : Nat → Bool) {s₀ s₁ : Server} {docs : Docs}
    {ls : List Label} (hreach : Reachable (serverStep E ok) Server.init s₀)
    (hinner : ∀ l ∈ ls, inner l = true)
    (hrun : run (serverStep E ok) s₀ (.start docs :: (ls ++ [.finish])) = some s₁)
    (hopen : Meets (serverStep E ok) (RegionsOpen E) s₀ (.start docs :: (ls ++ [.finish]))) :
    Faithful E (s₁.sent.drop s₀.sent.length)
        (expectedImages E ok s₀ (.start docs :: (ls ++ [.finish]))) ↔
      NoChessReport ls ∧
      ∀ k < ((expectedImages E ok s₀ (.start docs :: (ls ++ [.finish]))).map
        Image.filename).dedup.length, ok (s₀.sends + k) = true := by
  obtain ⟨u, s, hu, hs, hfin, -, hrunning⟩ := wholeRun_running hreach hinner hrun hopen
  have hfiles := collect_filename E ok (fun _ => 0) reportSeverity ls u
  have hout := finish_rows hrunning hfin
  rw [hfiles] at hout
  unfold expectedImages
  rw [collect_wholeRun rfl rfl hu hs hfin]
  have hlen : (collect (serverStep E ok) (stepImages (fun _ => 0) E) u ls).length =
      (collect (serverStep E ok) (stepImages reportSeverity E) u ls).length := by
    simpa using congrArg List.length hfiles
  constructor
  · intro hfaithful
    rcases hout with ⟨hok, hrows⟩ | ⟨-, hlt⟩
    · refine ⟨?_, hok⟩
      by_contra hchess
      obtain ⟨x, hx, hzero⟩ := exists_zero_severity hs hchess
      have hmem : expectedRow E x ∈
          (collect (serverStep E ok) (stepImages reportSeverity E) u ls).map (expectedRow E) :=
        (hrows.symm.trans hfaithful).mem_iff.mp (List.mem_map_of_mem hx)
      obtain ⟨y, hy, he⟩ := List.mem_map.mp hmem
      -- an expected image always has one of the severities 1 to 3
      obtain ⟨pre, l, hpre, v, hv, hyl⟩ := (mem_collect hs).mp hy
      have hpos : y.severity ≠ 0 := by
        cases l with
        | event ev => exact imageOf_severity_pos E _ ev y hyl
        | _ => cases hyl
      have hsev : y.severity = x.severity := congrArg (fun r : Row => r.2.1) he
      exact hpos (hsev.trans hzero)
    · have hcount := hfaithful.length_eq
      rw [List.length_map, List.length_map] at hcount
      omega
  · intro h
    obtain ⟨hchess, hok⟩ := h
    rcases hout with ⟨-, hrows⟩ | ⟨⟨k, hk, hbad⟩, -⟩
    · rw [collect_images_eq hchess _ reportSeverity] at hrows
      exact hrows
    · rw [hok k hk] at hbad
      cases hbad

/-! ## A report of each kind -/

def noteDocs : Docs := Table.empty.put (ascii "a") (ascii "%")

/-- One pass over `a` in which the assembler reports two warnings and an error. -/
def asmWarningRun : List Label :=
  [.enter, .event (.fopen noteDocs ⟨1, ascii "a"⟩ none),
    .event (.report .warning errorReport), .event (.report .error errorReport),
    .event (.report .warning { errorReport with message := ascii "Unused label" }),
    .asmDone false, .leave]

/-- One pass over `a` in which buxn-chess reports a warning. -/
def chessWarningRun : List Label :=
  [.enter, .event (.fopen noteDocs ⟨1, ascii "a"⟩ none), .asmDone true,
    .event (.chessReport (some 7) .warning errorReport), .chessDone, .leave]

theorem published_faithful_asm_warning :
    ∃ s₁, run (serverStep asciiEnv fun _ => true) Server.init
        (.start noteDocs :: (asmWarningRun ++ [.finish])) = some s₁ ∧
      (tagged s₁.sent).map (fun e => e.2.severity) = [2, 1, 2] ∧
      Faithful asciiEnv (s₁.sent.drop 0) (expectedImages asciiEnv (fun _ => true) Server.init
        (.start noteDocs :: (asmWarningRun ++ [.finish]))) := by
  have hsent : (run (serverStep asciiEnv fun _ => true) Server.init
      (.start noteDocs :: (asmWarningRun ++ [.finish]))).map (fun s =>
        (tagged s.sent).map fun e => e.2.severity) = some [2, 1, 2] := by decide
  obtain ⟨s₁, hs₁, hseverities⟩ := Option.map_eq_some_iff.mp hsent
  refine ⟨s₁, hs₁, hseverities, (published_faithful_iff asciiEnv (fun _ => true)
    (Reachable.refl _) (by decide) hs₁ (by decide)).mpr ⟨fun traceId type r hm => ?_,
      fun _ _ => rfl⟩⟩
  simp [asmWarningRun] at hm

/-- A chess warning is published with the severity zero. -/
theorem published_faithful_fails :
    ∃ s₁, run (serverStep asciiEnv fun _ => true) Server.init
        (.start noteDocs :: (chessWarningRun ++ [.finish])) = some s₁ ∧
      (tagged s₁.sent).map (fun e => e.2.severity) = [0] ∧
      ¬ Faithful asciiEnv s₁.sent (expectedImages asciiEnv (fun _ => true) Server.init
        (.start noteDocs :: (chessWarningRun ++ [.finish]))) := by
  have hsent : (run (serverStep asciiEnv fun _ => true) Server.init
      (.start noteDocs :: (chessWarningRun ++ [.finish]))).map (fun s => tagged s.sent) =
        some [(ascii "file:///w/a",
          ⟨ascii "buxn-chess", ascii "[7] Invalid token", 0, ⟨⟨0, 0⟩, ⟨0, 1⟩⟩, none⟩)] := by
    decide
  obtain ⟨s₁, hs₁, htags⟩ := Option.map_eq_some_iff.mp hsent
  refine ⟨s₁, hs₁, by rw [htags]; rfl, ?_⟩
  unfold Faithful
  rw [htags]
  decide

end BuxnLs.Analysis
