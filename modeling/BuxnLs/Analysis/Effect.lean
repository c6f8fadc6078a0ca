/-
  The effect of every function of `analyze.c` in terms of `CtxStep`. `LinesOnly` is the effect
  of a position conversion (only the line cache moves), `Effect` that of any part of a run: the
  current context changes by `CtxStep`s, the previous context and the queue do not change.
  `PassOK` is the invariant of a pass: `macro_defs`, `label_defs` and the most recent symbol
  hold definitions of this run.
-/
import BuxnLs.Analysis.Context
import BuxnLs.Model.Machine

namespace BuxnLs.Analysis

open BuxnLs.Lib BuxnLs.Model Relation

/-! ## Position conversion only moves the line cache -/

/-- A file without its line cache. -/
def fileData (file : File) : File := { file with firstLineIndex := none, numLines := 0 }

structure LinesOnly (a a' : Analyzer) : Prop where
  current : a'.current = a.current
  previous : a'.previous = a.previous
  queue : a'.analyzeQueue = a.analyzeQueue
  diagnostics : a'.diagnostics = a.diagnostics
  macroDefs : a'.macroDefs = a.macroDefs
  labelDefs : a'.labelDefs = a.labelDefs
  references : a'.references = a.references
  keys : a'.files.keys = a.files.keys
  data : ∀ f, (a'.files.find? f).map fileData = (a.files.find? f).map fileData

theorem LinesOnly.refl (a : Analyzer) : LinesOnly a a :=
  ⟨rfl, rfl, rfl, rfl, rfl, rfl, rfl, rfl, fun _ => rfl⟩

theorem LinesOnly.trans {a b c : Analyzer} (h : LinesOnly a b) (h' : LinesOnly b c) :
    LinesOnly a c where
  current := h'.current.trans h.current
  previous := h'.previous.trans h.previous
  queue := h'.queue.trans h.queue
  diagnostics := h'.diagnostics.trans h.diagnostics
  macroDefs := h'.macroDefs.trans h.macroDefs
  labelDefs := h'.labelDefs.trans h.labelDefs
  references := h'.references.trans h.references
  keys := h'.keys.trans h.keys
  data := fun f => (h'.data f).trans (h.data f)

/-- What does not depend on the line cache of a file stays. -/
theorem LinesOnly.field {β : Type} {a b : Analyzer} (h : LinesOnly a b) (f : Str) {g : File → β}
    (hg : ∀ file, g (fileData file) = g file) :
    (b.files.find? f).map g = (a.files.find? f).map g := by
  have hdata := congrArg (Option.map g) (h.data f)
  rw [Option.map_map, Option.map_map, show g ∘ fileData = g from funext hg] at hdata
  exact hdata

theorem keys_put_of_find? {fs : Table Str File} {f : Str} {file file' : File}
    (h : fs.find? f = some file) : (fs.put f file').keys = fs.keys := by
  rw [Table.keys_put, if_pos ((fs.mem_keys_iff f).mpr (by rw [h]; rfl)), List.append_nil]

theorem splitFile_linesOnly (a : Analyzer) (filename : Str) :
    LinesOnly a (a.splitFile filename).1 := by
  unfold Analyzer.splitFile
  split
  · exact LinesOnly.refl a
  · rename_i file hf
    split
    · exact LinesOnly.refl a
    · refine ⟨rfl, rfl, rfl, rfl, rfl, rfl, rfl, keys_put_of_find? hf, fun f => ?_⟩
      dsimp only
      rw [Table.find?_put]
      split
      · rename_i he
        subst he
        rw [hf]
        rfl
      · rfl

theorem convertPosition_linesOnly (E : Env) (a : Analyzer) (filename : Str) (pos : AsmPos) :
    LinesOnly a (convertPosition E a filename pos).1 :=
  splitFile_linesOnly a filename

theorem convertRange_linesOnly (E : Env) (a : Analyzer) (filename : Str) (range : AsmRange) :
    LinesOnly a (convertRange E a filename range).1 :=
  (convertPosition_linesOnly E a filename range.start).trans
    (convertPosition_linesOnly E _ filename range.stop)

theorem convertRegion_linesOnly (E : Env) (a : Analyzer) (region : AsmRegion) :
    LinesOnly a (convertRegion E a region).1 :=
  convertRange_linesOnly E a _ region.range

/-! ## Conversion does not look at the marks of files -/

/-- What position conversion reads of a file. -/
def textOf (file : File) : Str × Option Nat × Nat :=
  (file.content, file.firstLineIndex, file.numLines)

structure SameText (a b : Analyzer) : Prop where
  current : b.current = a.current
  lines : b.lines = a.lines
  text : ∀ f, (b.files.find? f).map textOf = (a.files.find? f).map textOf

theorem SameText.put {a : Analyzer} {filename : Str} {file file' : File}
    (hf : a.files.find? filename = some file) (ht : textOf file' = textOf file) :
    SameText a { a with files := a.files.put filename file' } := by
  refine ⟨rfl, rfl, fun f => ?_⟩
  dsimp only
  rw [Table.find?_put]
  split
  · rename_i he
    rw [← he, hf, Option.map_some, Option.map_some, ht]
  · rfl

theorem markError_sameText (a : Analyzer) (filename : Str) :
    SameText a (markError a filename) := by
  unfold markError
  split
  · exact ⟨rfl, rfl, fun _ => rfl⟩
  · rename_i file hf
    exact .put hf rfl

theorem noteSymbolByte_sameText {a : Analyzer} {filename : Str} {file : File}
    (hf : a.files.find? filename = some file) (byte : Nat) :
    SameText a (noteSymbolByte a filename file byte) := by
  unfold noteSymbolByte
  split
  · exact .put hf rfl
  · exact ⟨rfl, rfl, fun _ => rfl⟩

theorem splitFile_sameText {a b : Analyzer} (h : SameText a b) (filename : Str) :
    (b.splitFile filename).2 = (a.splitFile filename).2 ∧
      SameText (a.splitFile filename).1 (b.splitFile filename).1 := by
  have ht := h.text filename
  unfold Analyzer.splitFile
  cases ha : a.files.find? filename with
  | none =>
      rw [ha, Option.map_none, Option.map_eq_none_iff] at ht
      rw [ht]
      exact ⟨rfl, h⟩
  | some file =>
      rw [ha] at ht
      obtain ⟨file', hb, he⟩ := Option.map_eq_some_iff.mp ht
      rw [hb]
      simp only [textOf, Prod.mk.injEq] at he
      obtain ⟨hc, hi, hn⟩ := he
      dsimp only
      rw [hi]
      cases hfirst : file.firstLineIndex with
      | some first => exact ⟨by rw [h.lines, hn], h⟩
      | none =>
          refine ⟨by rw [hc], h.current, by rw [h.lines, hc], fun f => ?_⟩
          dsimp only
          rw [Table.find?_put, Table.find?_put]
          split
          · simp [textOf, hc, h.lines]
          · exact h.text f

theorem convertPosition_sameText (E : Env) {a b : Analyzer} (h : SameText a b) (filename : Str)
    (pos : AsmPos) :
    (convertPosition E b filename pos).2 = (convertPosition E a filename pos).2 ∧
      SameText (convertPosition E a filename pos).1 (convertPosition E b filename pos).1 := by
  obtain ⟨hslice, hsame⟩ := splitFile_sameText h filename
  unfold convertPosition
  dsimp only
  rw [hslice]
  exact ⟨rfl, hsame⟩

theorem convertRange_sameText (E : Env) {a b : Analyzer} (h : SameText a b) (filename : Str)
    (range : AsmRange) :
    (convertRange E b filename range).2 = (convertRange E a filename range).2 ∧
      SameText (convertRange E a filename range).1 (convertRange E b filename range).1 := by
  obtain ⟨hstart, hsame⟩ := convertPosition_sameText E h filename range.start
  obtain ⟨hstop, hsame'⟩ := convertPosition_sameText E hsame filename range.stop
  unfold convertRange
  dsimp only
  rw [hstart, hstop]
  exact ⟨rfl, hsame'⟩

theorem convertRegion_sameText (E : Env) {a b : Analyzer} (h : SameText a b) (region : AsmRegion) :
    (convertRegion E b region).2 = (convertRegion E a region).2 := by
  obtain ⟨hrange, hsame⟩ := convertRange_sameText E h region.filename.chars region.range
  unfold convertRegion
  dsimp only
  rw [hrange, hsame.current]

/-! ## Effects on the current context -/

/-- `macro_defs` and `label_defs` hold definitions of this run. -/
structure DefsListed (a : Analyzer) : Prop where
  macros : ∀ id ∈ a.macroDefs, Defined a.current id
  labels : ∀ k id, a.labelDefs.find? k = some id → Defined a.current id

structure Effect (E : Env) (entry : SrcId) (a a' : Analyzer) : Prop where
  steps : CtxSteps E entry a.current a'.current
  previous : a'.previous = a.previous
  queue : a'.analyzeQueue = a.analyzeQueue
  listed : CtxWF E a.current → DefsListed a → DefsListed a'

theorem Effect.refl (E : Env) (entry : SrcId) (a : Analyzer) : Effect E entry a a :=
  ⟨.refl, rfl, rfl, fun _ h => h⟩

theorem Effect.trans {E : Env} {entry : SrcId} {a b c : Analyzer} (h : Effect E entry a b)
    (h' : Effect E entry b c) : Effect E entry a c :=
  ⟨h.steps.trans h'.steps, h'.previous.trans h.previous, h'.queue.trans h.queue,
    fun hw hd => h'.listed (h.steps.wf hw) (h.listed hw hd)⟩

/-- The changes so far followed by one that keeps `macro_defs` and `label_defs`. -/
theorem Effect.of_steps {E : Env} {entry : SrcId} {a a' : Analyzer}
    (hs : CtxSteps E entry a.current a'.current) (hp : a'.previous = a.previous)
    (hq : a'.analyzeQueue = a.analyzeQueue) (hm : a'.macroDefs = a.macroDefs)
    (hl : a'.labelDefs = a.labelDefs) : Effect E entry a a' where
  steps := hs
  previous := hp
  queue := hq
  listed := fun _ hd =>
    ⟨fun id hid => hs.defined (hd.macros id (hm ▸ hid)),
      fun k id hid => hs.defined (hd.labels k id (hl ▸ hid))⟩

theorem Effect.of_same {E : Env} {entry : SrcId} {a a' : Analyzer} (hc : a'.current = a.current)
    (hp : a'.previous = a.previous) (hq : a'.analyzeQueue = a.analyzeQueue)
    (hm : a'.macroDefs = a.macroDefs) (hl : a'.labelDefs = a.labelDefs) : Effect E entry a a' :=
  .of_steps (by rw [hc]) hp hq hm hl

theorem LinesOnly.effect {E : Env} {entry : SrcId} {a a' : Analyzer} (h : LinesOnly a a') :
    Effect E entry a a' :=
  .of_same h.current h.previous h.queue h.macroDefs h.labelDefs

/-- An effect of a fold from the effect of its body. -/
theorem foldl_effect {α : Type} {E : Env} {entry : SrcId} {f : Analyzer → α → Analyzer}
    (hf : ∀ a x, Effect E entry a (f a x)) (xs : List α) (a : Analyzer) :
    Effect E entry a (xs.foldl f a) := by
  induction xs generalizing a with
  | nil => exact Effect.refl E entry a
  | cons x xs ih => exact (hf a x).trans (ih (f a x))

/-! ## Opening files and reports -/

theorem sourceNode_effect (E : Env) (entry : SrcId) (a : Analyzer) (filename : Str) :
    Effect E entry a (sourceNode E a filename).1 ∧
      (sourceNode E a filename).1.current.sources.find? filename =
        some (sourceNode E a filename).2 := by
  unfold sourceNode
  split
  · rename_i node hf
    exact ⟨Effect.refl E entry a, hf⟩
  · rename_i hf
    exact ⟨.of_steps (.single (.addSource hf)) rfl rfl rfl rfl, Table.find?_put_self _ _ _⟩

theorem linkEntry_eq (a : Analyzer) (entry node : SrcId) :
    linkEntry a entry node = { a with current := openSource a.current entry node } := by
  unfold linkEntry openSource
  split <;> rfl

theorem linkEntry_current (a : Analyzer) (entry node : SrcId) :
    (linkEntry a entry node).current = openSource a.current entry node := by
  rw [linkEntry_eq]

theorem linkEntry_effect (E : Env) {entry node : SrcId} {a : Analyzer} {filename : Str}
    (hf : a.current.sources.find? filename = some node) :
    Effect E entry a (linkEntry a entry node) := by
  rw [linkEntry_eq]
  exact .of_steps (.single (.openSource hf)) rfl rfl rfl rfl

theorem captureFile_eq (a : Analyzer) (filename content : Str) :
    captureFile a filename content =
      { a with files := (captureFile a filename content).files } := by
  unfold captureFile
  split <;> rfl

theorem captureFile_current (a : Analyzer) (filename content : Str) :
    (captureFile a filename content).current = a.current := by
  rw [captureFile_eq]

theorem captureFile_effect (E : Env) (entry : SrcId) (a : Analyzer) (filename content : Str) :
    Effect E entry a (captureFile a filename content) := by
  rw [captureFile_eq]
  exact .of_same rfl rfl rfl rfl rfl

/-- Opening a file captures it and moves the context. -/
theorem asmFopen_moves (E : Env) (p : Pass) (docs : Docs) (filename : CStr) (disk : Option Str) :
    (findContent p.analyzer docs disk filename.chars = none ∧
      (asmFopen E p docs filename disk).1.analyzer = p.analyzer) ∨
    ∃ content c, findContent p.analyzer docs disk filename.chars = some content ∧
      (asmFopen E p docs filename disk).1.analyzer =
        { captureFile p.analyzer filename.chars content with current := c } := by
  have hlinked : ∀ a, ∃ c, linkEntry (sourceNode E a filename.chars).1 p.ctx.entryNode
      (sourceNode E a filename.chars).2 = { a with current := c } := by
    intro a
    rw [linkEntry_eq]
    unfold sourceNode
    split
    · exact ⟨_, rfl⟩
    · exact ⟨_, rfl⟩
  unfold asmFopen
  cases hcontent : findContent p.analyzer docs disk filename.chars with
  | none => exact Or.inl ⟨rfl, rfl⟩
  | some content =>
      obtain ⟨c, hc⟩ := hlinked (captureFile p.analyzer filename.chars content)
      exact Or.inr ⟨content, c, rfl, hc⟩

theorem asmFopen_effect (E : Env) (p : Pass) (docs : Docs) (filename : CStr) (disk : Option Str) :
    Effect E p.ctx.entryNode p.analyzer (asmFopen E p docs filename disk).1.analyzer := by
  unfold asmFopen
  split
  · exact Effect.refl _ _ _
  · rename_i content _
    have hcap := captureFile_effect E p.ctx.entryNode p.analyzer filename.chars content
    obtain ⟨hsrc, hf⟩ := sourceNode_effect E p.ctx.entryNode
      (captureFile p.analyzer filename.chars content) filename.chars
    exact (hcap.trans hsrc).trans (linkEntry_effect E hf)

theorem asmFopen_ctx (E : Env) (p : Pass) (docs : Docs) (filename : CStr) (disk : Option Str) :
    (asmFopen E p docs filename disk).1.ctx = p.ctx := by
  unfold asmFopen
  split <;> rfl

theorem markError_effect (E : Env) (entry : SrcId) (a : Analyzer) (filename : Str) :
    Effect E entry a (markError a filename) := by
  unfold markError
  split <;> exact .of_same rfl rfl rfl rfl rfl

theorem addRelated_linesOnly (E : Env) (a : Analyzer) (r : Report) (d : Diagnostic) :
    LinesOnly a (addRelated E a r d).1 := by
  unfold addRelated
  split
  · exact LinesOnly.refl a
  · split
    · exact convertRegion_linesOnly E a r.region
    · exact LinesOnly.refl a

theorem pushDiagnostic_effect (E : Env) (entry : SrcId) (a : Analyzer) (d : Diagnostic) :
    Effect E entry a (pushDiagnostic a d) :=
  .of_same rfl rfl rfl rfl rfl

/-! ## Reports -/

/-- The common tail of the two report functions. -/
def reportTail (E : Env) (a : Analyzer) (r : Report) (d : Location → Diagnostic) : Analyzer :=
  match convertRegion E a r.region with
  | (a, location) =>
    match addRelated E a r (d location) with
    | (a, d) => pushDiagnostic a d

/-- An error marks its file first. -/
def markReport (a : Analyzer) (type : ReportType) (r : Report) : Analyzer :=
  if type = .error then markError a r.region.filename.chars else a

/-- What `buxn_asm_report` saves of a report. -/
def asmDiagnostic (type : ReportType) (r : Report) (location : Location) : Diagnostic :=
  { Diagnostic.zero with
      location := location, message := r.message, source := ascii "buxn-asm",
      severity := reportSeverity type }

/-- What `buxn_chess_report` saves of a report. -/
def chessDiagnostic (traceId : Option Int) (r : Report) (location : Location) : Diagnostic :=
  { Diagnostic.zero with
      location := location, message := chessMessage traceId r.message,
      source := ascii "buxn-chess" }

theorem asmReport_eq (E : Env) (a : Analyzer) (type : ReportType) (r : Report) :
    asmReport E a type r =
      if r.region.range.start.line = 0 then a
      else reportTail E (markReport a type r) r (asmDiagnostic type r) := rfl

theorem chessReport_eq (E : Env) (a : Analyzer) (traceId : Option Int) (type : ReportType)
    (r : Report) :
    chessReport E a traceId type r =
      if r.region.range.start.line = 0 ∨ type = .other then a
      else reportTail E (markReport a type r) r (chessDiagnostic traceId r) := by
  unfold chessReport
  by_cases hline : r.region.range.start.line = 0
  · rw [if_pos hline, if_pos (Or.inl hline)]
  · by_cases htype : type = .other
    · rw [if_neg hline, if_pos htype, if_pos (Or.inr htype)]
    · rw [if_neg hline, if_neg htype, if_neg (not_or.mpr ⟨hline, htype⟩)]
      rfl

/-- A relation that the common tail keeps. -/
structure TailKeeps (E : Env) (R : Analyzer → Analyzer → Prop) : Prop where
  refl : ∀ a, R a a
  trans : ∀ {a b c}, R a b → R b c → R a c
  convert : ∀ a region, R a (convertRegion E a region).1
  push : ∀ a d, R a (pushDiagnostic a d)

namespace TailKeeps

variable {E : Env} {R : Analyzer → Analyzer → Prop}

theorem related (h : TailKeeps E R) (a : Analyzer) (r : Report) (d : Diagnostic) :
    R a (addRelated E a r d).1 := by
  unfold addRelated
  split
  · exact h.refl a
  · split
    · exact h.convert a r.region
    · exact h.refl a

theorem tail (h : TailKeeps E R) (a : Analyzer) (r : Report) (d : Location → Diagnostic) :
    R a (reportTail E a r d) := by
  unfold reportTail
  have hconvert := h.convert a r.region
  generalize convertRegion E a r.region = converted at hconvert ⊢
  obtain ⟨a', location⟩ := converted
  have hrelated := h.trans hconvert (h.related a' r (d location))
  dsimp only
  generalize addRelated E a' r (d location) = related at hrelated ⊢
  exact h.trans hrelated (h.push related.1 related.2)

theorem chessDeo (h : TailKeeps E R) (a : Analyzer) (traceId : Int) (s : ChessState)
    (value port : UInt8) : R a (chessDeo E a traceId s value port) := by
  unfold Model.chessDeo
  split
  · exact h.trans (h.convert a s.srcRegion) (h.push _ _)
  · exact h.refl a

end TailKeeps

/-- A relation that each step of a report keeps. -/
structure ReportKeeps (E : Env) (R : Analyzer → Analyzer → Prop) : Prop extends TailKeeps E R where
  mark : ∀ a filename, R a (markError a filename)

namespace ReportKeeps

variable {E : Env} {R : Analyzer → Analyzer → Prop}

theorem marked (h : ReportKeeps E R) (a : Analyzer) (type : ReportType) (r : Report) :
    R a (markReport a type r) := by
  unfold markReport
  split
  · exact h.mark a _
  · exact h.refl a

theorem asmReport (h : ReportKeeps E R) (a : Analyzer) (type : ReportType) (r : Report) :
    R a (asmReport E a type r) := by
  rw [asmReport_eq]
  split
  · exact h.refl a
  · exact h.trans (h.marked a type r) (h.tail _ r _)

theorem chessReport (h : ReportKeeps E R) (a : Analyzer) (traceId : Option Int)
    (type : ReportType) (r : Report) : R a (chessReport E a traceId type r) := by
  rw [chessReport_eq]
  split
  · exact h.refl a
  · exact h.trans (h.marked a type r) (h.tail _ r _)

end ReportKeeps

theorem reports_effect (E : Env) (entry : SrcId) : ReportKeeps E (Effect E entry) where
  refl := Effect.refl E entry
  trans := Effect.trans
  mark := markError_effect E entry
  convert := fun a region => (convertRegion_linesOnly E a region).effect
  push := pushDiagnostic_effect E entry

/-! ## Symbols -/

/-- The invariant of a pass. -/
structure PassOK (E : Env) (p : Pass) : Prop where
  wf : CtxWF E p.analyzer.current
  listed : DefsListed p.analyzer
  recent : ∀ id, p.ctx.currentSymNode = some id → Defined p.analyzer.current id

/-- A callback that respects the invariant of the pass. -/
structure PassEffect (E : Env) (p p' : Pass) : Prop where
  effect : Effect E p.ctx.entryNode p.analyzer p'.analyzer
  entry : p'.ctx.entryNode = p.ctx.entryNode
  ok : PassOK E p'

theorem PassEffect.refl {E : Env} {p : Pass} (hp : PassOK E p) : PassEffect E p p :=
  ⟨Effect.refl _ _ _, rfl, hp⟩

theorem PassEffect.trans {E : Env} {p q r : Pass} (h : PassEffect E p q)
    (h' : PassEffect E q r) : PassEffect E p r :=
  ⟨h.effect.trans (h.entry ▸ h'.effect), h'.entry.trans h.entry, h'.ok⟩

/-- A part of a pass that leaves the most recent symbol as it was. -/
theorem PassEffect.of_effect {E : Env} {p p' : Pass} (hp : PassOK E p)
    (he : Effect E p.ctx.entryNode p.analyzer p'.analyzer)
    (hn : p'.ctx.entryNode = p.ctx.entryNode)
    (hc : p'.ctx.currentSymNode = p.ctx.currentSymNode) : PassEffect E p p' where
  effect := he
  entry := hn
  ok :=
    { wf := he.steps.wf hp.wf
      listed := he.listed hp.wf hp.listed
      recent := fun id hid => he.steps.defined (hp.recent id (hc ▸ hid)) }

/-- The cases of `handleAnnotation`: it writes a zero-page semantics, or annotates the node of
    the most recent symbol. -/
theorem handleAnnotation_cases {p p' : Pass} {call : AnnoCall}
    (h : handleAnnotation p call = some p') :
    (p'.ctx = p.ctx ∧ ∃ file sem, p.analyzer.files.find? call.region.filename.chars = some file ∧
      p'.analyzer = { p.analyzer with
        files := p.analyzer.files.put call.region.filename.chars
          { file with zeroPageSemantics := sem } }) ∨
    (∃ id f enumScope, p.ctx.currentSymNode = some id ∧ Annotates f ∧
      p'.ctx = { p.ctx with enumScope := enumScope } ∧
      p'.analyzer = p.analyzer.modifySym id f) := by
  unfold handleAnnotation at h
  split at h
  · obtain ⟨id, hid, rfl⟩ := Option.map_eq_some_iff.mp h
    exact Or.inr ⟨id, _, p.ctx.enumScope, hid, fun n => ⟨_, _, _, rfl⟩, rfl, rfl⟩
  · split at h
    · cases h
    · rename_i file hf
      split at h
      · obtain ⟨id, hid, rfl⟩ := Option.map_eq_some_iff.mp h
        exact Or.inr ⟨id, _, p.ctx.enumScope, hid, fun n => ⟨_, _, _, rfl⟩, rfl, rfl⟩
      · cases h
        exact Or.inl ⟨rfl, file, _, hf, rfl⟩
      · cases h
        exact Or.inl ⟨rfl, file, _, hf, rfl⟩
      · split at h
        · cases h
        · rename_i id hid
          cases h
          exact Or.inr ⟨id, _, _, hid, fun n => ⟨_, _, _, rfl⟩, rfl, rfl⟩

theorem handleAnnotation_effect {E : Env} {p p' : Pass} {call : AnnoCall} (hp : PassOK E p)
    (h : handleAnnotation p call = some p') : PassEffect E p p' := by
  obtain ⟨hc, file, sem, -, ha⟩ | ⟨id, f, enumScope, hid, hf, hc, ha⟩ := handleAnnotation_cases h
  · refine .of_effect hp ?_ (by rw [hc]) (by rw [hc])
    rw [ha]
    exact .of_same rfl rfl rfl rfl rfl
  · obtain ⟨node, src, entry, hn, ho, -⟩ := hp.recent id hid
    refine .of_effect hp ?_ (by rw [hc]) (by rw [hc])
    rw [ha]
    exact .of_steps (.single (.annotate hn ho hf)) rfl rfl rfl rfl

/-- A new node is linked to a source found under its file name. -/
theorem makeSymNode_spec {E : Env} {a a' : Analyzer} {sym : AsmSym} {node : SymNode}
    (h : makeSymNode E a sym = some (a', node)) :
    LinesOnly a a' ∧ a.current.sources.find? sym.region.filename.chars = some node.source ∧
      node.type = sym.type ∧ node.name = sym.name ∧
      node.byteOffset = sym.region.range.start.byte ∧ node.origin = .reference ∧
      node.range = (convertRange E a sym.region.filename.chars sym.region.range).2 := by
  unfold makeSymNode at h
  split at h
  · cases h
  · rename_i src hs
    simp only [Option.some.injEq, Prod.mk.injEq] at h
    obtain ⟨rfl, rfl⟩ := h
    exact ⟨convertRange_linesOnly E a _ _, hs, rfl, rfl, rfl, rfl, rfl⟩

theorem noteSymbolByte_current (a : Analyzer) (filename : Str) (file : File) (byte : Nat) :
    (noteSymbolByte a filename file byte).current = a.current := by
  unfold noteSymbolByte
  split <;> rfl

theorem noteSymbolByte_effect (E : Env) (entry : SrcId) (a : Analyzer) (filename : Str)
    (file : File) (byte : Nat) : Effect E entry a (noteSymbolByte a filename file byte) := by
  unfold noteSymbolByte
  split
  · exact .of_same rfl rfl rfl rfl rfl
  · exact Effect.refl E entry a

/-- What `putDefinition` links for a symbol that is not generated: `node` is the fresh node,
    `a` the analyzer before it is linked. -/
structure PutNode (E : Env) (p p' : Pass) (sym : AsmSym) (file : File) (a : Analyzer)
    (node : SymNode) : Prop where
  opened : p.analyzer.files.find? sym.region.filename.chars = some file
  lines : LinesOnly (noteSymbolByte p.analyzer sym.region.filename.chars file
    sym.region.range.start.byte) a
  source : a.current.sources.find? sym.region.filename.chars = some node.source
  type : node.type = sym.type
  name : node.name = sym.name
  byteOffset : node.byteOffset = sym.region.range.start.byte
  origin : node.origin = .emitted p.ctx.entryNode
  range : node.range = (convertRange E p.analyzer sym.region.filename.chars sym.region.range).2
  analyzer : ∃ mds lds, p'.analyzer =
      { (a.pushDefinition node).1 with macroDefs := mds, labelDefs := lds } ∧
    ((mds = a.macroDefs ∧ lds = a.labelDefs.put sym.id a.current.syms.length) ∨
      (mds = a.macroDefs ++ [a.current.syms.length] ∧ lds = a.labelDefs))
  ctx : ∃ enumScope, p'.ctx =
    { p.ctx with enumScope := enumScope, currentSymNode := some a.current.syms.length }

/-- The cases of `putDefinition`: a generated name leaves no node, any other definition is
    linked in front of the definitions of its file. -/
theorem putDefinition_cases {E : Env} {p p' : Pass} {addr : UInt16} {sym : AsmSym}
    (h : putDefinition E p addr sym = some p') :
    (∃ file, p.analyzer.files.find? sym.region.filename.chars = some file ∧
      sym.nameIsGenerated = true ∧
      p' = ⟨noteSymbolByte p.analyzer sym.region.filename.chars file
        sym.region.range.start.byte, p.ctx⟩) ∨
    (sym.nameIsGenerated = false ∧ ∃ file a node, PutNode E p p' sym file a node) := by
  unfold putDefinition at h
  split at h
  · cases h
  · rename_i file hf
    dsimp only at h
    split at h
    · rename_i hg
      exact Or.inl ⟨file, hf, hg, (Option.some.inj h).symm⟩
    · rename_i hg
      obtain ⟨⟨a, node⟩, hm, hp⟩ := Option.map_eq_some_iff.mp h
      obtain ⟨hl, hs, ht, hn, hb, -, hr⟩ := makeSymNode_spec hm
      have hr := hr.trans (convertRange_sameText E (noteSymbolByte_sameText hf _) _ _).1
      refine Or.inr ⟨by simpa using hg, file, a, ?_⟩
      rw [← hl.current] at hs
      dsimp only at hp
      split at hp
      · subst hp
        exact ⟨{ node with address := addr, semantics := _, origin := .emitted p.ctx.entryNode },
          hf, hl, hs, ht, hn, hb, rfl, hr, ⟨a.macroDefs, _, rfl, Or.inl ⟨rfl, rfl⟩⟩, _, rfl⟩
      · subst hp
        exact ⟨{ node with semantics := .asSubroutine, origin := .emitted p.ctx.entryNode },
          hf, hl, hs, ht, hn, hb, rfl, hr, ⟨_, a.labelDefs, rfl, Or.inr ⟨rfl, rfl⟩⟩,
          p.ctx.enumScope, rfl⟩

theorem PutNode.before {E : Env} {p p' : Pass} {sym : AsmSym} {file : File} {a : Analyzer}
    {node : SymNode} (h : PutNode E p p' sym file a node) (entry : SrcId) :
    Effect E entry p.analyzer a :=
  (noteSymbolByte_effect E entry _ _ _ _).trans h.lines.effect

theorem PutNode.current {E : Env} {p p' : Pass} {sym : AsmSym} {file : File} {a : Analyzer}
    {node : SymNode} (h : PutNode E p p' sym file a node) :
    p'.analyzer.current = linkDefinition a.current node := by
  obtain ⟨mds, lds, ha, -⟩ := h.analyzer
  rw [ha]
  rfl

theorem PutNode.effect {E : Env} {p p' : Pass} {sym : AsmSym} {file : File} {a : Analyzer}
    {node : SymNode} (hp : PassOK E p) (h : PutNode E p p' sym file a node) :
    PassEffect E p p' := by
  obtain ⟨mds, lds, ha, hdefs⟩ := h.analyzer
  obtain ⟨enumScope, hc⟩ := h.ctx
  have hb := h.before p.ctx.entryNode
  have hwf := hb.steps.wf hp.wf
  have hstep : CtxStep E p.ctx.entryNode a.current p'.analyzer.current :=
    h.current ▸ .definition h.source
  have hnew : Defined p'.analyzer.current a.current.syms.length :=
    h.current ▸ linkDefinition_defined hwf h.source h.origin
  have heff : Effect E p.ctx.entryNode a p'.analyzer := by
    refine ⟨.single hstep, by rw [ha]; rfl, by rw [ha]; rfl, fun _ hd => ⟨fun id hid => ?_,
      fun k id hid => ?_⟩⟩
    · rw [ha] at hid
      rcases hdefs with ⟨rfl, -⟩ | ⟨rfl, -⟩
      · exact hstep.defined (hd.macros id hid)
      · rcases List.mem_append.mp hid with hid | hid
        · exact hstep.defined (hd.macros id hid)
        · exact List.mem_singleton.mp hid ▸ hnew
    · rw [ha] at hid
      rcases hdefs with ⟨-, rfl⟩ | ⟨-, rfl⟩
      · dsimp only at hid
        rw [Table.find?_put] at hid
        split at hid
        · exact Option.some.inj hid ▸ hnew
        · exact hstep.defined (hd.labels k id hid)
      · exact hstep.defined (hd.labels k id hid)
  have hall := hb.trans heff
  refine ⟨hall, by rw [hc], hall.steps.wf hp.wf, hall.listed hp.wf hp.listed, fun id hid => ?_⟩
  rw [hc] at hid
  exact Option.some.inj hid ▸ hnew

theorem putDefinition_effect {E : Env} {p p' : Pass} {addr : UInt16} {sym : AsmSym}
    (hp : PassOK E p) (h : putDefinition E p addr sym = some p') : PassEffect E p p' := by
  obtain ⟨file, -, -, rfl⟩ | ⟨-, file, a, node, hput⟩ := putDefinition_cases h
  · exact .of_effect hp (noteSymbolByte_effect E _ _ _ _ _) rfl rfl
  · exact hput.effect hp

/-- A symbol is a definition, or at most joins the references. -/
theorem putSymNode_type_cases {E : Env} {p p' : Pass} {addr : UInt16} {sym : AsmSym}
    (h : putSymNode E p addr sym = some p') :
    ((sym.type = .macroDef ∨ sym.type = .label) ∧ putDefinition E p addr sym = some p') ∨
    ((sym.type ≠ .macroDef ∧ sym.type ≠ .label) ∧
      ∃ refs, p' = { p with analyzer := { p.analyzer with references := refs } }) := by
  unfold putSymNode at h
  split at h
  · next ht => exact Or.inl ⟨Or.inl ht, h⟩
  · next ht => exact Or.inl ⟨Or.inr ht, h⟩
  · next ht => exact Or.inr ⟨by simp [ht], _, (Option.some.inj h).symm⟩
  · next ht => exact Or.inr ⟨by simp [ht], _, (Option.some.inj h).symm⟩
  · next ht => exact Or.inr ⟨by simp [ht], p.analyzer.references, (Option.some.inj h).symm⟩

/-- A repeated symbol is dropped; any other is delivered before its annotations. -/
theorem asmPutSymbol_cases {E : Env} {p p' : Pass} {addr : UInt16} {sym : AsmSym}
    {annos : List AnnoCall} (h : asmPutSymbol E p addr sym annos = some p') :
    (p.ctx.repeats sym = true ∧ p' = p) ∨
    (¬ p.ctx.repeats sym = true ∧ ∃ q, putSymNode E p addr sym = some q ∧
      annos.foldlM handleAnnotation
        { q with ctx := { q.ctx with previousSym := some sym } } = some p') := by
  unfold asmPutSymbol at h
  split at h
  · next hrep => exact Or.inl ⟨hrep, (Option.some.inj h).symm⟩
  · next hrep => exact Or.inr ⟨hrep, Option.bind_eq_some_iff.mp h⟩

theorem putSymNode_effect {E : Env} {p p' : Pass} {addr : UInt16} {sym : AsmSym}
    (hp : PassOK E p) (h : putSymNode E p addr sym = some p') : PassEffect E p p' := by
  obtain ⟨-, hput⟩ | ⟨-, refs, rfl⟩ := putSymNode_type_cases h
  · exact putDefinition_effect hp hput
  · exact .of_effect hp (.of_same rfl rfl rfl rfl rfl) rfl rfl

theorem annotations_effect {E : Env} {p p' : Pass} {annos : List AnnoCall} (hp : PassOK E p)
    (h : annos.foldlM handleAnnotation p = some p') : PassEffect E p p' :=
  foldlM_inv (P := fun q => PassEffect E p q)
    (fun _ _ _ _ hq hs => hq.trans (handleAnnotation_effect hq.ok hs)) (.refl hp) h

theorem asmPutSymbol_effect {E : Env} {p p' : Pass} {addr : UInt16} {sym : AsmSym}
    {annos : List AnnoCall} (hp : PassOK E p) (h : asmPutSymbol E p addr sym annos = some p') :
    PassEffect E p p' := by
  obtain ⟨-, rfl⟩ | ⟨-, q, hq, hannos⟩ := asmPutSymbol_cases h
  · exact .refl hp
  · have he := putSymNode_effect hp hq
    have hprev : PassEffect E q { q with ctx := { q.ctx with previousSym := some sym } } :=
      .of_effect he.ok (Effect.refl _ _ _) rfl rfl
    exact (he.trans hprev).trans (annotations_effect hprev.ok hannos)

/-- One callback: its entry stays, and so do the previous context and the queue. -/
theorem applyEvent_effect {E : Env} {p p' : Pass} {ev : Event} (hp : PassOK E p)
    (h : applyEvent E p ev = some p') : PassEffect E p p' := by
  cases ev with
  | fopen docs filename disk =>
      cases h
      have hc := asmFopen_ctx E p docs filename disk
      exact .of_effect hp (asmFopen_effect E p docs filename disk) (by rw [hc]) (by rw [hc])
  | report type r =>
      cases h
      exact .of_effect hp ((reports_effect E _).asmReport _ type r) rfl rfl
  | putRom addr value =>
      cases h
      exact .of_effect hp (Effect.refl _ _ _) rfl rfl
  | putSymbol addr sym annos => exact asmPutSymbol_effect hp h
  | chessReport traceId type r =>
      cases h
      exact .of_effect hp ((reports_effect E _).chessReport _ traceId type r) rfl rfl
  | chessDeo traceId s value port =>
      cases h
      exact .of_effect hp ((reports_effect E _).chessDeo _ traceId s value port) rfl rfl

end BuxnLs.Analysis
