/-
  A run of the analyzer is a run of the index. Every function of `analyze.c` has the effect on
  `indexerOf` that its counterpart has on an `Indexer`, failures included; `step_indexStep` puts
  them together and `run_indexRun` carries it to whole runs.
-/
import BuxnLs.Analysis.Index
import BuxnLs.Analysis.LineCache
import BuxnLs.Analysis.Schedule

namespace BuxnLs.Analysis

open BuxnLs.Lib BuxnLs.Model Relation

/-! ## The abstraction -/

def capturedOf (file : File) : Captured where
  content := file.content
  zeroPageSemantics := file.zeroPageSemantics
  lastSymbolByte := file.lastSymbolByte
  hasError := file.hasError

def indexerOf (a : Analyzer) : Indexer where
  index := indexOf a.current
  older := indexOf a.previous
  captured := a.files.mapValues capturedOf
  macros := a.macroDefs
  labels := a.labelDefs
  pending := a.references

def indexPassOf (ctx : AsmCtx) : IndexPass where
  previousSym := ctx.previousSym
  enumScope := ctx.enumScope
  recent := ctx.currentSymNode
  romIsEmpty := ctx.romIsEmpty

def indexPhaseOf : Phase → IndexPhase
  | .idle => .idle
  | .loop _ => .loop
  | .asm _ ctx => .asm (indexPassOf ctx)
  | .chess _ ctx => .chess (indexPassOf ctx)
  | .ended _ => .ended

def indexStateOf (m : Machine) : IndexState := ⟨indexerOf m.analyzer, indexPhaseOf m.phase⟩

def passView (p : Pass) : Indexer × IndexPass := (indexerOf p.analyzer, indexPassOf p.ctx)

/-! ## What the index does not see -/

theorem LinesOnly.indexerOf {a b : Analyzer} (h : LinesOnly a b) : indexerOf b = indexerOf a := by
  have hfiles : b.files.mapValues capturedOf = a.files.mapValues capturedOf := by
    refine Table.ext_find? ?_ fun f => ?_
    · rw [Table.keys_mapValues, Table.keys_mapValues, h.keys]
    · rw [Table.find?_mapValues, Table.find?_mapValues]
      exact h.field f fun _ => rfl
  unfold Analysis.indexerOf
  rw [h.current, h.previous, h.macroDefs, h.labelDefs, h.references, hfiles]

/-- Saving a report does not show in the index. -/
theorem tail_indexerOf (E : Env) : TailKeeps E fun a b => indexerOf b = indexerOf a where
  refl := fun _ => rfl
  trans := fun h h' => h'.trans h
  convert := fun a region => (convertRegion_linesOnly E a region).indexerOf
  push := fun _ _ => rfl

theorem captured_find? (a : Analyzer) (f : Str) :
    (indexerOf a).captured.find? f = (a.files.find? f).map capturedOf :=
  Table.find?_mapValues capturedOf a.files f

/-- The marks of a file. -/
theorem indexerOf_put {a : Analyzer} {f : Str} {file file' : File} {g : Captured → Captured}
    (hf : a.files.find? f = some file) (hg : capturedOf file' = g (capturedOf file)) :
    indexerOf { a with files := a.files.put f file' } = (indexerOf a).note f g := by
  unfold Indexer.note
  rw [captured_find?, hf, Option.map_some]
  dsimp only
  rw [← hg]
  unfold indexerOf
  rw [Table.mapValues_put]

theorem indexerOf_noteSymbolByte {a : Analyzer} {f : Str} {file : File}
    (hf : a.files.find? f = some file) (byte : Nat) :
    indexerOf (noteSymbolByte a f file byte) = (indexerOf a).note f fun file =>
      { file with lastSymbolByte := max file.lastSymbolByte byte } := by
  unfold noteSymbolByte
  split
  · next hlt =>
      refine indexerOf_put hf ?_
      have hmax : max file.lastSymbolByte byte = byte := Nat.max_eq_right (Nat.le_of_lt hlt)
      simp only [capturedOf, hmax]
  · next hle =>
      have hmax : max file.lastSymbolByte byte = file.lastSymbolByte :=
        Nat.max_eq_left (Nat.not_lt.mp hle)
      have hself : capturedOf file = { capturedOf file with
          lastSymbolByte := max (capturedOf file).lastSymbolByte byte } := by
        simp only [capturedOf, hmax]
      rw [← indexerOf_put hf hself, Table.put_self hf]

theorem indexerOf_markError (a : Analyzer) (f : Str) :
    indexerOf (markError a f)
      = (indexerOf a).note f fun file => { file with hasError := true } := by
  unfold markError
  split
  · next hf =>
      unfold Indexer.note
      rw [captured_find?, hf]
      rfl
  · next file hf => exact indexerOf_put hf rfl

/-! ## Files and reports -/

/-- What the functions of a pass rely on. -/
structure Indexing (E : Env) (a : Analyzer) : Prop where
  current : Indexed E a.current
  previous : Indexed E a.previous
  cache : CacheOK a

theorem fopen_view {E : Env} {p : Pass} (h : Indexing E p.analyzer) (docs : Docs)
    (filename : CStr) (disk : Option Str) :
    passView (asmFopen E p docs filename disk).1 =
      ((indexerOf p.analyzer).fopen docs filename.chars disk, indexPassOf p.ctx) := by
  -- the node of the file is found or made, and linking it does not show
  have hnode : ∀ a : Analyzer, a.current = p.analyzer.current →
      indexerOf (linkEntry (sourceNode E a filename.chars).1 p.ctx.entryNode
        (sourceNode E a filename.chars).2) =
      { indexerOf a with index := (indexOf p.analyzer.current).addFile filename.chars } := by
    intro a ha
    rw [linkEntry_eq]
    unfold indexerOf
    dsimp only
    rw [indexOf_openSource]
    unfold sourceNode
    split
    · next node hf =>
        have hmem : filename.chars ∈ (indexOf a.current).files :=
          (mem_files_iff (ha ▸ h.current.wf) _).mpr ⟨node, hf⟩
        unfold Index.addFile
        rw [← ha, if_pos hmem]
    · next hf =>
        have hadd := indexOf_addSource (E := E) (ha ▸ h.current.wf) (ha ▸ h.current.placed) hf
        rw [← ha, ← hadd]
        rfl
  have hcapture : ∀ content, (captureFile p.analyzer filename.chars content).current =
      p.analyzer.current := captureFile_current _ _
  unfold asmFopen passView Indexer.fopen findContent
  rw [captured_find?]
  cases hf : p.analyzer.files.find? filename.chars with
  | some file =>
      dsimp only [Option.map_some]
      rw [hnode _ (hcapture _)]
      unfold captureFile
      rw [hf]
      rfl
  | none =>
      have hput : ∀ content, indexerOf (captureFile p.analyzer filename.chars content) =
          { indexerOf p.analyzer with
              captured := (indexerOf p.analyzer).captured.put filename.chars
                ⟨content, .asVariable, 0, false⟩ } := by
        intro content
        unfold captureFile putFile
        rw [hf]
        unfold indexerOf
        simp only [Option.isSome_none, Bool.false_eq_true, if_false, Table.mapValues_put]
        rfl
      dsimp only [Option.map_none]
      cases hd : docs.find? filename.chars with
      | some content =>
          dsimp only
          rw [hnode _ (hcapture _), hput]
          rfl
      | none =>
          cases disk with
          | none => rfl
          | some content =>
              dsimp only
              rw [hnode _ (hcapture _), hput]
              rfl

theorem report_view (E : Env) (a : Analyzer) (type : ReportType) (r : Report) :
    indexerOf (asmReport E a type r) = (indexerOf a).report type r := by
  rw [asmReport_eq]
  unfold Indexer.report
  by_cases hline : r.region.range.start.line = 0
  · rw [if_pos hline, if_neg fun h => h.1 hline]
  · rw [if_neg hline, (tail_indexerOf E).tail, markReport]
    by_cases htype : type = .error
    · rw [if_pos htype, if_pos ⟨hline, htype⟩]
      exact indexerOf_markError a _
    · rw [if_neg htype, if_neg fun h => htype h.2]

theorem chessReport_view (E : Env) (a : Analyzer) (traceId : Option Int) (type : ReportType)
    (r : Report) :
    indexerOf (chessReport E a traceId type r) = (indexerOf a).report type r := by
  rw [chessReport_eq]
  unfold Indexer.report
  by_cases hline : r.region.range.start.line = 0
  · rw [if_pos (Or.inl hline), if_neg fun h => h.1 hline]
  · by_cases htype : type = .error
    · have hother : ¬ (r.region.range.start.line = 0 ∨ type = .other) := by
        rintro (h | h)
        · exact hline h
        · rw [htype] at h
          cases h
      rw [if_neg hother, (tail_indexerOf E).tail, markReport, if_pos htype,
        if_pos ⟨hline, htype⟩]
      exact indexerOf_markError a _
    · have herror : ¬ (r.region.range.start.line ≠ 0 ∧ type = .error) := fun h => htype h.2
      rw [if_neg herror]
      split
      · rfl
      · rw [(tail_indexerOf E).tail, markReport, if_neg htype]

/-! ## Symbols -/

/-- The entry of a node that is not linked to anything. -/
def unlinkedEntry (file : Str) (n : SymNode) : IndexEntry where
  file := file
  name := n.name
  documentation := n.documentation
  signature := n.signature
  semantics := n.semantics
  byteOffset := n.byteOffset
  range := n.range
  target := none

theorem rangeOf_view {E : Env} {a : Analyzer} (h : CacheOK a) (region : AsmRegion) :
    (indexerOf a).rangeOf E region =
      (convertRange E a region.filename.chars region.range).2 := by
  rw [h.range, h.position, h.position]
  unfold Indexer.rangeOf
  rw [captured_find?, Option.map_map]
  rfl

/-- A symbol gets a node exactly when the index has its file, and then the entry of that node. -/
theorem makeSymNode_view {E : Env} {a : Analyzer} (h : Indexing E a) (sym : AsmSym) :
    (makeSymNode E a sym = none ∧ (indexerOf a).entry E sym = none) ∨
    ∃ b node, makeSymNode E a sym = some (b, node) ∧ LinesOnly a b ∧
      a.current.sources.find? sym.region.filename.chars = some node.source ∧
      node.name = sym.name ∧
      (indexerOf a).entry E sym = some (unlinkedEntry sym.region.filename.chars node) := by
  have hmem := mem_files_iff h.current.wf sym.region.filename.chars
  unfold makeSymNode Indexer.entry
  rw [rangeOf_view h.cache]
  cases hf : a.current.sources.find? sym.region.filename.chars with
  | none =>
      refine Or.inl ⟨rfl, if_neg fun hin => ?_⟩
      obtain ⟨id, hid⟩ := hmem.mp hin
      rw [hf] at hid
      cases hid
  | some src =>
      refine Or.inr ⟨_, _, rfl, convertRange_linesOnly E a _ sym.region.range, rfl, rfl, ?_⟩
      have hin : sym.region.filename.chars ∈ (indexerOf a).index.files := hmem.mpr ⟨src, hf⟩
      rw [if_pos hin]
      rfl

theorem pushDefinition_view {E : Env} {a : Analyzer} (hc : CtxWF E a.current) {f : Str}
    {n : SymNode} (hf : a.current.sources.find? f = some n.source) :
    indexerOf (a.pushDefinition n).1 =
      { indexerOf a with index := (indexerOf a).index.add (unlinkedEntry f n) } := by
  have hlink : (a.pushDefinition n).1 = { a with current := linkDefinition a.current n } :=
    rfl
  rw [hlink]
  unfold indexerOf
  dsimp only
  rw [indexOf_linkDefinition hc hf]
  rfl

theorem putDefinition_view {E : Env} {p : Pass} (h : Indexing E p.analyzer) (addr : UInt16)
    (sym : AsmSym) :
    (putDefinition E p addr sym).map passView =
      (indexerOf p.analyzer).define E (indexPassOf p.ctx) addr sym := by
  unfold putDefinition Indexer.define
  rw [captured_find?]
  cases hf : p.analyzer.files.find? sym.region.filename.chars with
  | none => rfl
  | some file =>
      dsimp only [Option.map_some]
      have hnote := indexerOf_noteSymbolByte hf sym.region.range.start.byte
      have hcurrent := noteSymbolByte_current p.analyzer sym.region.filename.chars file
        sym.region.range.start.byte
      have hprevious := (noteSymbolByte_effect E 0 p.analyzer sym.region.filename.chars file
        sym.region.range.start.byte).previous
      have hcache := h.cache.of_sameText (noteSymbolByte_sameText hf sym.region.range.start.byte)
      rw [← hnote]
      generalize noteSymbolByte p.analyzer sym.region.filename.chars file
        sym.region.range.start.byte = a at hcurrent hprevious hcache ⊢
      have ha : Indexing E a := ⟨hcurrent ▸ h.current, hprevious ▸ h.previous, hcache⟩
      split
      · rfl
      · rcases makeSymNode_view ha sym with ⟨hm, he⟩ | ⟨b, node, hm, hl, hs, hname, he⟩
        · rw [hm, he]
          rfl
        · rw [hm, he, Option.map_some, Option.map_some, Option.map_some, ← hl.indexerOf]
          have hwf : CtxWF E b.current := hl.current ▸ ha.current.wf
          have hsource : b.current.sources.find? sym.region.filename.chars = some node.source :=
            hl.current ▸ hs
          have hlength : b.current.syms.length = (indexerOf b).index.log.length :=
            (length_indexOf b.current).symm
          dsimp only
          rw [← hlength]
          split
          · rw [← hname, show labelSemantics p.ctx file addr node.name =
              Indexer.kindOf (indexPassOf p.ctx) (capturedOf file) addr node.name from rfl]
            obtain ⟨semantics, enumScope⟩ :=
              Indexer.kindOf (indexPassOf p.ctx) (capturedOf file) addr node.name
            have hpush := pushDefinition_view (n := { node with
              address := addr, semantics := semantics, origin := .emitted p.ctx.entryNode })
              hwf hsource
            exact congrArg some (Prod.ext (congrArg (fun s : Indexer =>
              { s with labels := b.labelDefs.put sym.id b.current.syms.length }) hpush) rfl)
          · have hpush := pushDefinition_view (n := { node with
              semantics := .asSubroutine, origin := .emitted p.ctx.entryNode }) hwf hsource
            exact congrArg some (Prod.ext (congrArg (fun s : Indexer =>
              { s with macros := b.macroDefs ++ [b.current.syms.length] }) hpush) rfl)

/-- Annotating a symbol node rewrites its entry. -/
theorem modifySym_view {a : Analyzer} {id : SymId} {f : SymNode → SymNode}
    {g : IndexEntry → IndexEntry}
    (hfg : ∀ n, indexEntry a.current id (f n) = g (indexEntry a.current id n)) :
    indexerOf (a.modifySym id f) =
      { indexerOf a with index := (indexerOf a).index.rewrite id g } := by
  have hannotate : a.modifySym id f = { a with current := annotate a.current id f } := rfl
  rw [hannotate]
  unfold indexerOf
  dsimp only
  rw [indexOf_annotate a.current id hfg]

theorem sliceFile_view (a : Analyzer) (region : AsmRegion) :
    sliceFile a region = (indexerOf a).textAt region := by
  unfold sliceFile Indexer.textAt
  rw [captured_find?]
  cases a.files.find? region.filename.chars <;> rfl

theorem handleAnnotation_view (p : Pass) (call : AnnoCall) :
    passView <$> handleAnnotation p call =
      (indexerOf p.analyzer).annotate (indexPassOf p.ctx) call := by
  have hrecent : (indexPassOf p.ctx).recent = p.ctx.currentSymNode := rfl
  unfold handleAnnotation Indexer.annotate
  dsimp only
  rw [captured_find?, hrecent, sliceFile_view]
  cases call.annotation with
  | none =>
      cases hid : p.ctx.currentSymNode with
      | none => rfl
      | some id =>
          exact congrArg some (Prod.ext (modifySym_view fun _ => rfl) rfl)
  | some annotation =>
      cases hf : p.analyzer.files.find? call.region.filename.chars with
      | none => rfl
      | some file =>
          dsimp only [Option.map_some]
          rw [if_neg (Option.some_ne_none _)]
          cases annotation with
          | doc =>
              cases hid : p.ctx.currentSymNode with
              | none => rfl
              | some id =>
                  exact congrArg some (Prod.ext (modifySym_view fun _ => rfl) rfl)
          | buxnDevice => exact congrArg some (Prod.ext (indexerOf_put hf rfl) rfl)
          | buxnMemory => exact congrArg some (Prod.ext (indexerOf_put hf rfl) rfl)
          | buxnEnum =>
              cases hid : p.ctx.currentSymNode with
              | none => rfl
              | some id =>
                  refine congrArg some (Prod.ext (modifySym_view fun _ => rfl) ?_)
                  have hname : ((p.analyzer.modifySym id fun node =>
                        { node with semantics := .asEnum }).current.syms[id]?).elim []
                        (fun node => labelScope node.name) =
                      ((indexerOf p.analyzer).index.log[id]?).elim []
                        fun e => labelScope e.name := by
                    show ((p.analyzer.current.syms.modify id _)[id]?).elim [] _ =
                      ((indexOf p.analyzer.current).log[id]?).elim [] _
                    rw [List.getElem?_modify, getElem?_indexOf]
                    cases p.analyzer.current.syms[id]? <;> simp [indexEntry]
                  exact congrArg (fun scope =>
                    { indexPassOf p.ctx with enumScope := scope, recent := some id }) hname

theorem annotations_view (annos : List AnnoCall) (p : Pass) :
    (annos.foldlM handleAnnotation p).map passView =
      annos.foldlM (fun sp call => sp.1.annotate sp.2 call) (passView p) :=
  (foldlM_view (P := fun _ => True)
    (fun p call _ _ => ⟨handleAnnotation_view p call, fun _ _ => trivial⟩) trivial).1

theorem symbol_view {E : Env} {p : Pass} (h : Indexing E p.analyzer) (addr : UInt16)
    (sym : AsmSym) (annos : List AnnoCall) :
    (asmPutSymbol E p addr sym annos).map passView =
      (indexerOf p.analyzer).symbol E (indexPassOf p.ctx) addr sym annos := by
  have hannos := fun q : Pass =>
    annotations_view annos { q with ctx := { q.ctx with previousSym := some sym } }
  unfold asmPutSymbol Indexer.symbol putSymNode
  rw [show (indexPassOf p.ctx).repeats sym = p.ctx.repeats sym from rfl]
  split
  · rfl
  · cases sym.type with
    | macroDef | label =>
        dsimp only
        rw [← putDefinition_view h, Option.map_bind, Option.bind_map]
        exact Option.bind_congr fun q _ => hannos q
    | macroRef | labelRef | other => exact hannos _

theorem event_view {E : Env} {p : Pass} (h : Indexing E p.analyzer) (ev : Event) :
    (applyEvent E p ev).map passView =
      (indexerOf p.analyzer).event E (indexPassOf p.ctx) ev := by
  cases ev with
  | fopen docs filename disk => exact congrArg some (fopen_view h docs filename disk)
  | report type r => exact congrArg some (Prod.ext (report_view E p.analyzer type r) rfl)
  | putRom addr value => rfl
  | putSymbol addr sym annos => exact symbol_view h addr sym annos
  | chessReport traceId type r =>
      exact congrArg some (Prod.ext (chessReport_view E p.analyzer traceId type r) rfl)
  | chessDeo traceId s value port =>
      exact congrArg some
        (Prod.ext ((tail_indexerOf E).chessDeo p.analyzer traceId s value port) rfl)

/-! ## The end of a pass -/

theorem extend_append (s : Indexer) (es es' : List IndexEntry) :
    (s.extend es).extend es' = s.extend (es ++ es') := by
  unfold Indexer.extend
  rw [List.append_assoc]

theorem extend_nil (s : Indexer) : s.extend [] = s := by
  unfold Indexer.extend
  rw [List.append_nil]

/-- Copying old symbols to the node of their file appends their entries, without the ones before
    the last symbol of the run. -/
theorem carrySymbols_view {E : Env} {f : Str} {source : SrcId} (last : Nat) (ids : List SymId)
    {a : Analyzer} (hc : CtxWF E a.current) (hs : a.current.sources.find? f = some source)
    (hids : ∀ id ∈ ids, ∃ e, (indexOf a.previous).log[id]? = some e ∧
      Index.isDefinitionIn f e = true) :
    indexerOf (ids.foldl (carrySymbol source last) a) =
      (indexerOf a).extend
        ((ids.filterMap fun id => (indexOf a.previous).log[id]?).filter fun e =>
          last < e.byteOffset) := by
  induction ids generalizing a with
  | nil => exact (extend_nil _).symm
  | cons id ids ih =>
      obtain ⟨e, he, hdef⟩ := hids id List.mem_cons_self
      obtain ⟨hfile, htarget⟩ : e.file = f ∧ e.target = none := by
        simpa [Index.isDefinitionIn] using hdef
      have hrest := fun id hid => hids id (List.mem_cons_of_mem _ hid)
      have hlog := he
      rw [getElem?_indexOf] at hlog
      obtain ⟨n, hn, hentry⟩ := Option.map_eq_some_iff.mp hlog
      have hbyte : e.byteOffset = n.byteOffset := by rw [← hentry]; rfl
      rw [List.foldl_cons, List.filterMap_cons, he, List.filter_cons]
      by_cases hlast : n.byteOffset ≤ last
      · have hsame : carrySymbol source last a id = a := by
          unfold carrySymbol
          rw [hn]
          exact if_pos hlast
        rw [hsame, ih hc hs hrest, if_neg (by simpa [hbyte] using hlast)]
      · have hpushed : carrySymbol source last a id =
            (a.pushDefinition { n with source := source, origin := .carried id }).1 := by
          unfold carrySymbol
          rw [hn]
          exact if_neg hlast
        have hview := pushDefinition_view
          (n := { n with source := source, origin := .carried id }) hc hs
        have hcopy : unlinkedEntry f { n with source := source, origin := .carried id } = e := by
          have hunlinked : (indexEntry a.previous id n).target = none := hentry ▸ htarget
          have hnamed : (indexEntry a.previous id n).file = f := hentry ▸ hfile
          rw [← hentry]
          unfold indexEntry at hunlinked hnamed ⊢
          dsimp only at hunlinked hnamed
          rw [hunlinked, hnamed]
          rfl
        have hcarried := carrySymbol_carries source last a id
        have hwf : CtxWF E (carrySymbol source last a id).current :=
          hpushed ▸ linkDefinition_wf hc { n with source := source, origin := .carried id }
        rw [ih hwf (hcarried.sources ▸ hs) (hcarried.previous ▸ hrest), hcarried.previous,
          hpushed, hview, hcopy, if_pos (by simpa [hbyte] using hlast)]
        exact extend_append (indexerOf a) [e] _

theorem carryFile_view {E : Env} {a : Analyzer} (hc : CtxWF E a.current)
    (hprev : Indexed E a.previous) (f : Str) (file : File) :
    indexerOf (carryFile a f file) =
      (indexerOf a).extend ((indexerOf a).kept f (capturedOf file)) := by
  have hmem : f ∈ (indexerOf a).index.files ↔ ∃ id, a.current.sources.find? f = some id :=
    mem_files_iff hc f
  have hgroup := hprev.definitions f
  unfold carryFile Indexer.kept
  by_cases herror : file.hasError = true
  · rw [if_pos herror]
    cases hs : a.current.sources.find? f with
    | none =>
        have hout : ¬ ((capturedOf file).hasError = true ∧ f ∈ (indexerOf a).index.files) := by
          rintro ⟨-, hin⟩
          obtain ⟨id, hid⟩ := hmem.mp hin
          rw [hs] at hid
          cases hid
        rw [if_neg hout, extend_nil]
        split <;> first | rfl | simp_all
    | some source =>
        rw [if_pos ⟨herror, hmem.mpr ⟨source, hs⟩⟩]
        have hdefs : ((indexerOf a).older.definitionsIn f) =
            (definitionsOf a.previous f).filterMap fun id =>
              (indexOf a.previous).log[id]? := by
          rw [hgroup, filterMap_numbers (k := some) fun i => by
            cases (indexOf a.previous).log[i]? <;> rfl]
          exact List.filterMap_some.symm
        have hids : ∀ id ∈ definitionsOf a.previous f, ∃ e,
            (indexOf a.previous).log[id]? = some e ∧ Index.isDefinitionIn f e = true := by
          intro id hid
          rw [hgroup] at hid
          obtain ⟨⟨e, i⟩, he, rfl⟩ := List.mem_map.mp hid
          exact ⟨e, mem_newest_iff.mp he⟩
        rw [hdefs]
        cases hsrc : a.previous.srcOf f with
        | none =>
            have hnil : definitionsOf a.previous f = [] := by
              unfold definitionsOf
              rw [hsrc]
              rfl
            rw [hnil]
            exact (extend_nil _).symm
        | some src =>
            have hlist : definitionsOf a.previous f = src.definitions := by
              unfold definitionsOf
              rw [hsrc]
              rfl
            rw [hlist] at hids ⊢
            exact carrySymbols_view file.lastSymbolByte src.definitions hc hs hids
  · have hout : ¬ ((capturedOf file).hasError = true ∧ f ∈ (indexerOf a).index.files) :=
      fun h => herror h.1
    rw [if_neg herror, if_neg hout, extend_nil]

theorem carryFiles_view {E : Env} (es : List (Str × File)) {a : Analyzer}
    (hc : CtxWF E a.current) (hprev : Indexed E a.previous) :
    indexerOf (es.foldl (fun a e => carryFile a e.1 e.2) a) =
      (indexerOf a).extend (es.flatMap fun e => (indexerOf a).kept e.1 (capturedOf e.2)) := by
  induction es generalizing a with
  | nil => exact (extend_nil _).symm
  | cons e es ih =>
      have hcarried := carryFile_carries a e.1 e.2
      have hwf := (carryFile_effect E 0 a e.1 e.2).steps.wf hc
      have hview := carryFile_view hc hprev e.1 e.2
      -- what is kept does not depend on what was kept before
      have hkept : ∀ (f : Str) (file : Captured),
          (indexerOf (carryFile a e.1 e.2)).kept f file = (indexerOf a).kept f file := by
        intro f file
        rw [hview]
        rfl
      rw [List.foldl_cons, ih hwf (hcarried.previous ▸ hprev), List.flatMap_cons,
        ← extend_append, ← hview]
      simp only [hkept]

theorem carryForward_view {E : Env} {a : Analyzer} (h : Indexing E a) :
    indexerOf (carryForward a) =
      (indexerOf a).extend
        ((indexerOf a).captured.entries.flatMap fun e => (indexerOf a).kept e.1 e.2) := by
  have hentries : (indexerOf a).captured.entries =
      a.files.entries.map fun e => (e.1, capturedOf e.2) := rfl
  rw [hentries, List.flatMap_map]
  exact carryFiles_view a.files.entries h.current.wf h.previous

theorem connectReference_view {E : Env} {a : Analyzer} (h : Indexing E a) (sym : AsmSym) :
    (connectReference E a sym).map indexerOf = (indexerOf a).connect E sym := by
  unfold connectReference Indexer.connect
  rw [show (indexerOf a).resolve sym = resolveReference a sym from rfl]
  cases resolveReference a sym with
  | none => rfl
  | some d =>
      rcases makeSymNode_view h sym with ⟨hm, he⟩ | ⟨b, node, hm, hl, hs, -, he⟩
      · rw [hm, he]
        rfl
      · have hwf : CtxWF E b.current := hl.current ▸ h.current.wf
        have hsource : b.current.sources.find? sym.region.filename.chars = some node.source :=
          hl.current ▸ hs
        rw [hm, he, ← hl.indexerOf]
        have hlink : indexerOf { b with current := linkReference b.current node d } =
            { indexerOf b with
                index := (indexerOf b).index.add
                  { unlinkedEntry sym.region.filename.chars node with target := some d } } := by
          unfold indexerOf
          dsimp only
          rw [indexOf_linkReference hwf hsource]
          rfl
        exact congrArg some hlink

/-- What connecting references keeps. -/
theorem connectReference_indexing {E : Env} {a b : Analyzer} (h : Indexing E a)
    (hd : DefsListed a) {sym : AsmSym} (hb : connectReference E a sym = some b) :
    Indexing E b ∧ DefsListed b := by
  have he := connectReference_effect 0 hd hb
  refine ⟨⟨he.steps.indexed h.current, he.previous ▸ h.previous, ?_⟩,
    he.listed h.current.wf hd⟩
  obtain ⟨-, rfl⟩ | ⟨d, c, node, -, hm, rfl⟩ := connectReference_cases hb
  · exact h.cache
  · have hc : CacheOK c := keeps_cacheOK.symNode hm h.cache
    exact hc.congr rfl fun _ => rfl

theorem carryForward_indexing {E : Env} {a : Analyzer} (h : Indexing E a) (hd : DefsListed a) :
    Indexing E (carryForward a) ∧ DefsListed (carryForward a) := by
  have he := carryForward_effect E 0 a
  refine ⟨⟨he.steps.indexed h.current, he.previous ▸ h.previous, ?_⟩,
    he.listed h.current.wf hd⟩
  exact h.cache.congr (carryForward_lines a) fun f => by rw [(carryForward_carries a).files]

theorem leavePass_view {E : Env} {a : Analyzer} (h : Indexing E a) (hd : DefsListed a) :
    (leavePass E a).map indexerOf = (indexerOf a).leave E := by
  have hcarried := carryForward_indexing h hd
  have hpending : (carryForward a).references = (indexerOf a).pending :=
    (carryForward_carries a).references
  unfold leavePass Indexer.leave
  rw [← carryForward_view h, ← hpending]
  exact (foldlM_view (P := fun b => Indexing E b ∧ DefsListed b)
    (fun b sym _ hb => ⟨connectReference_view hb.1 sym,
      fun b' hb' => connectReference_indexing hb.1 hb.2 hb'⟩) hcarried).1

/-! ## The start of a run -/

/-- Building the queue leaves what belongs to passes. -/
def SamePasses (a b : Analyzer) : Prop :=
  b.macroDefs = a.macroDefs ∧ b.labelDefs = a.labelDefs ∧ b.references = a.references

theorem queueDoc_samePasses {E : Env} {docs : Docs} {o a b : Analyzer} {f : Str}
    (ha : SamePasses o a) (h : queueDoc E docs a f = some b) : SamePasses o b := by
  unfold queueDoc at h
  split at h
  · exact Option.some.inj h ▸ ha
  · split at h
    · refine climb_inv (P := SamePasses o) (fun s s' v hs hl => ?_) ha h
      refine descend_inv (P := SamePasses o) (fun s v hs => ?_) hs hl
      unfold visitQueueNode
      split
      · exact hs
      · split
        · exact hs
        · split <;> exact hs
    · exact Option.some.inj h ▸ ha

theorem analyzeBegin_samePasses {E : Env} {docs : Docs} {a b : Analyzer}
    (h : analyzeBegin E docs a = some b) : SamePasses a b := by
  obtain ⟨c, hc, rfl⟩ := Option.map_eq_some_iff.mp h
  have hswap : SamePasses a (swapCtx a) := ⟨rfl, rfl, rfl⟩
  have hsame : SamePasses a c :=
    foldlM_inv (fun _ _ _ _ hs hq => queueDoc_samePasses hs hq) hswap hc
  exact hsame

/-- The files of a new context are the queued ones. -/
theorem queuedNames_eq_files {E : Env} {docs : Docs} {prev : AnalyzerCtx} {a : Analyzer}
    (h : Queued E docs prev a) : queuedNames a = (indexOf a.current).files := by
  have hall := filterMap_range_getElem? (a.current.srcs.map SrcNode.filename)
  rw [List.length_map] at hall
  unfold queuedNames
  rw [h.queue, show (indexOf a.current).files = a.current.srcs.map SrcNode.filename from rfl]
  simpa only [List.getElem?_map] using hall

/-- A run starts with an empty index over the open documents. -/
theorem analyzeBegin_view {E : Env} {docs : Docs} {a b : Analyzer} (hprev : Walkable E a.current)
    (h : analyzeBegin E docs a = some b) :
    ∃ files, files.Perm docs.keys ∧ indexerOf b = (indexerOf a).start files := by
  obtain ⟨hbegun, -, hfiles, -⟩ := analyzeBegin_begun h
  have hscheduled := analyzeBegin_scheduled hprev h
  have hnames := queuedNames_eq_files hscheduled.queued
  obtain ⟨hm, hl, hr⟩ := analyzeBegin_samePasses h
  have hindex : indexOf b.current = ⟨(indexOf b.current).files, []⟩ := by
    unfold indexOf
    rw [hbegun.syms]
    rfl
  refine ⟨(indexOf b.current).files, hnames ▸ hscheduled.perm, ?_⟩
  unfold indexerOf Indexer.start
  rw [hm, hl, hr, hfiles, hbegun.previous, ← hindex]
  rfl

theorem analyzeBegin_indexed {E : Env} {docs : Docs} {a b : Analyzer}
    (hprev : Walkable E a.current) (h : analyzeBegin E docs a = some b) :
    Indexed E b.current := by
  obtain ⟨hbegun, -⟩ := analyzeBegin_begun h
  have hqueued := (analyzeBegin_scheduled hprev h).queued
  have hnone : ∀ p, numbers p b.current = [] := by
    intro p
    unfold numbers indexOf
    rw [hbegun.syms]
    rfl
  have hlinks : ∀ (links : SrcNode → List SymId) (f : Str),
      (∀ filename, links (freshSrc E filename) = []) → linksOf links b.current f = [] := by
    intro links f hfresh
    unfold linksOf AnalyzerCtx.srcOf
    cases b.current.sources.find? f with
    | none => rfl
    | some id =>
        rw [Option.bind_some]
        cases hs : b.current.srcs[id]? with
        | none => rfl
        | some src =>
            rw [hbegun.fresh id src hs]
            exact hfresh _
  refine ⟨hbegun.wf, fun id n hn => ?_, ?_, fun f => ?_, fun f => ?_, fun d => ?_⟩
  · rw [hbegun.syms] at hn
    cases hn
  · rw [hqueued.names, queuedNames_eq_files hqueued]
  · exact (hlinks SrcNode.definitions f fun _ => rfl).trans (hnone _).symm
  · exact (hlinks SrcNode.references f fun _ => rfl).trans (hnone _).symm
  · rw [hnone, hbegun.symGraph]
    rfl

/-! ## Runs -/

theorem step_indexing {E : Env} {m m' : Machine} {l : Label}
    (hr : Reachable (step E) Machine.init m) (h : Indexing E m.analyzer)
    (hs : step E m l = some m') : Indexing E m'.analyzer := by
  have hcache := step_cacheOK h.cache hs
  have hm := reachable_ok hr
  cases step_cases hs with
  | start _ ha =>
      obtain ⟨hbegun, -⟩ := analyzeBegin_begun ha
      exact ⟨analyzeBegin_indexed (reachable_walkable hr) ha, hbegun.previous ▸ h.current, hcache⟩
  | event hctx hev =>
      have he := (applyEvent_effect (hm.pass hctx) hev).effect
      exact ⟨he.steps.indexed h.current, he.previous ▸ h.previous, hcache⟩
  | leave hp ha =>
      have he := leavePass_effect 0 hm.current (hm.listed (hp ▸ trivial)) ha
      exact ⟨he.steps.indexed h.current, he.previous ▸ h.previous, hcache⟩
  | _ => exact ⟨h.current, h.previous, hcache⟩

theorem reachable_indexing {E : Env} {m : Machine} (h : Reachable (step E) Machine.init m) :
    Indexing E m.analyzer :=
  (h.inv (P := fun m => Reachable (step E) Machine.init m ∧ Indexing E m.analyzer)
    ⟨.refl _, indexed_empty E, indexed_empty E, fun f file hf => by cases hf⟩
    fun _ _ _ hm hs => ⟨hm.1.next hs, step_indexing hm.1 hm.2 hs⟩).2

/-- A step of the analyzer is a step of the index. -/
theorem step_indexStep {E : Env} {m m' : Machine} {l : Label}
    (hr : Reachable (step E) Machine.init m) (hs : step E m l = some m') :
    IndexStep E (indexStateOf m) l (indexStateOf m') := by
  have h := reachable_indexing hr
  have hm := reachable_ok hr
  obtain ⟨a, phase⟩ := m
  cases step_cases hs with
  | start hp ha =>
      obtain ⟨files, hperm, hview⟩ := analyzeBegin_view (reachable_walkable hr) ha
      subst hp
      unfold indexStateOf
      rw [hview]
      exact .start hperm
  | skip hp _ _ =>
      subst hp
      exact .skip
  | enter hp _ _ =>
      subst hp
      exact .enter
  | @event ctx ev p hctx hev =>
      have hview := event_view (p := ⟨a, ctx⟩) h ev
      rw [hev, Option.map_some] at hview
      cases phase with
      | asm i c =>
          cases hctx
          exact .asm hview.symm
      | chess i c =>
          cases hctx
          exact .chess hview.symm
      | _ => cases hctx
  | asmDone hp hsuccess hrom =>
      subst hp hsuccess
      exact .asmDone hrom
  | asmEnded hp hnot =>
      subst hp
      exact .asmEnded hnot
  | chessDone hp =>
      subst hp
      exact .chessDone
  | leave hp ha =>
      subst hp
      have hview := leavePass_view h (hm.listed trivial)
      rw [show leavePass E a = _ from ha, Option.map_some] at hview
      exact .leave hview.symm
  | finish hp _ =>
      subst hp
      exact .finish

theorem run_indexRun {E : Env} {ls : List Label} {m : Machine}
    (h : run (step E) Machine.init ls = some m) :
    IndexRun E .init ls (indexStateOf m) := by
  induction ls using List.reverseRecOn generalizing m with
  | nil =>
      obtain rfl := Option.some.inj h
      exact .nil
  | append_singleton ls l ih =>
      obtain ⟨u, hu, hs⟩ := run_concat_some h
      exact .step (ih hu) (step_indexStep ⟨ls, hu⟩ hs)

/-- Whatever has been analyzed so far, the index has gone through the same steps, and every
    request is answered as from the index, or has no answer with either. -/
theorem answers_of_index {E : Env} {ls : List Label} {m : Machine}
    (h : run (step E) Machine.init ls = some m) :
    ∃ s, IndexRun E .init ls s ∧ ∀ query value,
      queryReadsNull E m.analyzer.current query value =
        s.indexer.index.readsNullPath E query value ∧
      answer E m.analyzer.current query value = s.indexer.index.answer E query value := by
  have hindexed := (reachable_indexing (E := E) ⟨ls, h⟩).current
  exact ⟨indexStateOf m, run_indexRun h, fun query value =>
    ⟨hindexed.readsNullPath query value, hindexed.answer query value⟩⟩

theorem answers_of_index_lone :
    ∃ m s, run (step asciiEnv) Machine.init loneReferringRun = some m ∧
      IndexRun asciiEnv .init loneReferringRun s ∧
      s.indexer.index.answer asciiEnv .definition (request "file:///w/a" 0 4) =
        .location (some ⟨ascii "file:///w/c", ⟨⟨0, 0⟩, ⟨0, 4⟩⟩⟩) ∧
      ∀ query value, answer asciiEnv m.analyzer.current query value =
        s.indexer.index.answer asciiEnv query value := by
  have hout : (run (step asciiEnv) Machine.init loneReferringRun).map (fun m =>
      answer asciiEnv m.analyzer.current .definition (request "file:///w/a" 0 4)) =
      some (.location (some ⟨ascii "file:///w/c", ⟨⟨0, 0⟩, ⟨0, 4⟩⟩⟩)) := by
    decide
  obtain ⟨m, hm, hreply⟩ := Option.map_eq_some_iff.mp hout
  obtain ⟨s, hrun, hanswer⟩ := answers_of_index hm
  exact ⟨m, s, hm, hrun, (hanswer _ _).2.symm.trans hreply, fun query value =>
    (hanswer query value).2⟩

end BuxnLs.Analysis
