/-
  The machine with its memory runs as the machine does. Each loop changes the analyzer of
  `Tracked` as the loop of `Model/Analyze.lean` changes it alone, and the memory gets a node, a
  key, a content, a name or a diagnostic whenever the analyzer does (`Aligned`). So forgetting
  the memory turns a run of `trackedStep` into a run of `step` (`trackedRun_machine`).
-/
import BuxnLs.Analysis.Invariant
import BuxnLs.Model.Memory

namespace BuxnLs.Analysis

open BuxnLs.Lib BuxnLs.Model

/-! ## Sizes -/

/-- How many nodes, references and diagnostics there are, and the keys of the tables. -/
structure Sizes where
  srcs : Nat
  syms : Nat
  keys : List Str
  files : List Str
  references : Nat
  diagnostics : Nat
deriving DecidableEq

/-- The keys of a table after a `put`. -/
def insertKey {κ : Type} [DecidableEq κ] (ks : List κ) (k : κ) : List κ :=
  ks ++ (if k ∈ ks then [] else [k])

namespace Sizes

def addSource (z : Sizes) (f : Str) : Sizes :=
  { z with srcs := z.srcs + 1, keys := insertKey z.keys f }

def addFile (z : Sizes) (f : Str) : Sizes := { z with files := insertKey z.files f }

def addSym (z : Sizes) : Sizes := { z with syms := z.syms + 1 }

def addReference (z : Sizes) : Sizes := { z with references := z.references + 1 }

def addDiagnostic (z : Sizes) : Sizes := { z with diagnostics := z.diagnostics + 1 }

end Sizes

def sizesOf (a : Analyzer) : Sizes where
  srcs := a.current.srcs.length
  syms := a.current.syms.length
  keys := a.current.sources.keys
  files := a.files.keys
  references := a.references.length
  diagnostics := a.diagnostics.length

def memorySizes (m : Memory) : Sizes where
  srcs := m.current.srcs.length
  syms := m.current.syms.length
  keys := m.current.keys.keys
  files := m.contents.keys
  references := m.references.length
  diagnostics := m.diagnostics.length

/-- The memory has an address for everything that the analyzer has. -/
def Aligned (a : Analyzer) (m : Memory) : Prop := memorySizes m = sizesOf a

/-! ## Sizes of the memory -/

@[simp] theorem memorySizes_alloc (m : Memory) (o : Obj) :
    memorySizes (m.alloc o).1 = memorySizes m := rfl

@[simp] theorem memorySizes_set (m : Memory) (p : Ptr) (f : Field) (v : Ptr) :
    memorySizes (m.set p f v) = memorySizes m := by
  cases p <;> rfl

@[simp] theorem memorySizes_addEdge (m : Memory) (a b : Ptr) :
    memorySizes (m.addEdge a b) = memorySizes m := by
  unfold Memory.addEdge
  rw [memorySizes_set, memorySizes_set, memorySizes_alloc]

@[simp] theorem memorySizes_addSource (m : Memory) (filename : Str) :
    memorySizes (m.addSource filename) = (memorySizes m).addSource filename := by
  unfold memorySizes Memory.addSource Sizes.addSource
  dsimp only
  rw [List.length_append, Table.keys_put]
  rfl

@[simp] theorem memorySizes_pushSym (m : Memory) (head : Field) (o : SymObj) :
    memorySizes (m.pushSym head o) = (memorySizes m).addSym := by
  have hset := memorySizes_set (m.alloc (.sym { o with next := m.get o.source head })).1 o.source
    head (some (m.alloc (.sym { o with next := m.get o.source head })).2)
  unfold Memory.pushSym
  rw [memorySizes_alloc] at hset
  rw [← hset]
  unfold memorySizes Sizes.addSym
  dsimp only
  rw [List.length_append]
  rfl

@[simp] theorem memorySizes_pushDiagnostic (m : Memory) (d : DiagObj) :
    memorySizes (m.pushDiagnostic d) = (memorySizes m).addDiagnostic := by
  unfold memorySizes Memory.pushDiagnostic Sizes.addDiagnostic
  dsimp only
  rw [List.length_append]
  rfl

@[simp] theorem memorySizes_arenaCstrcpy (m : Memory) (str : Str) :
    memorySizes (m.arenaCstrcpy str).1 = memorySizes m := by
  unfold Memory.arenaCstrcpy
  split <;> rfl

@[simp] theorem memorySizes_copySymbol (m : Memory) (sym : SymNode) (source : SrcId) :
    memorySizes (m.copySymbol sym source) = (memorySizes m).addSym := by
  unfold Memory.copySymbol Memory.pushDefinition
  simp only [memorySizes_pushSym, memorySizes_arenaCstrcpy]

@[simp] theorem memorySizes_reportMemory (a : Analyzer) (m : Memory) (r : Report) :
    memorySizes (reportMemory a m r) = (memorySizes m).addDiagnostic := by
  unfold reportMemory Memory.arenaStrcpy
  dsimp only
  split
  · simp only [memorySizes_pushDiagnostic, memorySizes_alloc]
  · split <;> simp only [memorySizes_pushDiagnostic, memorySizes_alloc]

@[simp] theorem memorySizes_annotationMemory (id : Option SymId) (m : Memory) (call : AnnoCall) :
    memorySizes (annotationMemory id m call) = memorySizes m := by
  unfold annotationMemory
  dsimp only
  split
  · exact memorySizes_set _ _ _ _
  · exact memorySizes_set _ _ _ _
  · rfl

/-! ## Sizes of the analyzer -/

theorem LinesOnly.sizes {a a' : Analyzer} (h : LinesOnly a a') : sizesOf a' = sizesOf a := by
  unfold sizesOf
  rw [h.current, h.keys, h.references, h.diagnostics]

@[simp] theorem sizesOf_doQueueFile (E : Env) (a : Analyzer) (filename : Str) :
    sizesOf (doQueueFile E a filename) = (sizesOf a).addSource filename := by
  unfold sizesOf doQueueFile allocNode Sizes.addSource
  dsimp only
  rw [List.length_append, Table.keys_put]
  rfl

theorem sizesOf_sourceNode (E : Env) (a : Analyzer) (filename : Str) :
    sizesOf (sourceNode E a filename).1 =
      if (a.current.sources.find? filename).isSome then sizesOf a
      else (sizesOf a).addSource filename := by
  unfold sourceNode
  cases hf : a.current.sources.find? filename with
  | some node => rfl
  | none =>
      unfold sizesOf allocNode Sizes.addSource
      dsimp only
      rw [List.length_append, Table.keys_put]
      rfl

theorem sizesOf_captureFile (a : Analyzer) (filename content : Str) :
    sizesOf (captureFile a filename content) =
      if (a.files.find? filename).isSome then sizesOf a else (sizesOf a).addFile filename := by
  unfold captureFile
  split
  · rfl
  · unfold sizesOf Sizes.addFile putFile
    dsimp only
    rw [Table.keys_put]
    rfl

@[simp] theorem sizesOf_modifySrc (a : Analyzer) (id : SrcId) (f : SrcNode → SrcNode) :
    sizesOf (a.modifySrc id f) = sizesOf a := by
  unfold sizesOf Analyzer.modifySrc
  dsimp only
  rw [List.length_modify]

@[simp] theorem sizesOf_modifySym (a : Analyzer) (id : SymId) (f : SymNode → SymNode) :
    sizesOf (a.modifySym id f) = sizesOf a := by
  unfold sizesOf Analyzer.modifySym
  dsimp only
  rw [List.length_modify]

@[simp] theorem sizesOf_linkEntry (a : Analyzer) (entry node : SrcId) :
    sizesOf (linkEntry a entry node) = sizesOf a := by
  unfold linkEntry
  dsimp only
  split <;> exact sizesOf_modifySrc a node _

@[simp] theorem sizesOf_pushDefinition (a : Analyzer) (node : SymNode) :
    sizesOf (a.pushDefinition node).1 = (sizesOf a).addSym := by
  unfold Analyzer.pushDefinition Analyzer.allocSym
  dsimp only
  rw [sizesOf_modifySrc]
  unfold sizesOf Sizes.addSym
  dsimp only
  rw [List.length_append]
  rfl

/-- A file that is there gets other marks. -/
theorem sizesOf_putFile {a : Analyzer} {filename : Str} {file : File} (file' : File)
    (h : a.files.find? filename = some file) :
    sizesOf { a with files := a.files.put filename file' } = sizesOf a := by
  unfold sizesOf
  dsimp only
  rw [keys_put_of_find? h]

@[simp] theorem sizesOf_markError (a : Analyzer) (filename : Str) :
    sizesOf (markError a filename) = sizesOf a := by
  unfold markError
  split
  · rfl
  · rename_i hf
    exact sizesOf_putFile _ hf

theorem sizesOf_noteSymbolByte {a : Analyzer} {filename : Str} {file : File}
    (h : a.files.find? filename = some file) (byte : Nat) :
    sizesOf (noteSymbolByte a filename file byte) = sizesOf a := by
  unfold noteSymbolByte
  split
  · exact sizesOf_putFile _ h
  · rfl

@[simp] theorem sizesOf_pushDiagnostic (a : Analyzer) (d : Diagnostic) :
    sizesOf (pushDiagnostic a d) = (sizesOf a).addDiagnostic := by
  unfold sizesOf pushDiagnostic Sizes.addDiagnostic
  dsimp only
  rw [List.length_append]
  rfl

/-- The common tail of the two report functions. -/
theorem sizesOf_report (E : Env) (a : Analyzer) (b : Bool) (r : Report)
    (d : Location → Diagnostic) :
    sizesOf
      (let a := if b then markError a r.region.filename.chars else a
       match convertRegion E a r.region with
       | (a, location) =>
         match addRelated E a r (d location) with
         | (a, d) => pushDiagnostic a d) = (sizesOf a).addDiagnostic := by
  dsimp only
  rw [sizesOf_pushDiagnostic, (addRelated_linesOnly E _ r _).sizes,
    (convertRegion_linesOnly E _ r.region).sizes]
  split
  · rw [sizesOf_markError]
  · rfl

theorem annotation_sizes {p p' : Pass} {call : AnnoCall}
    (h : handleAnnotation p call = some p') : sizesOf p'.analyzer = sizesOf p.analyzer := by
  obtain ⟨-, file, sem, hf, ha⟩ | ⟨id, f, enumScope, -, -, -, ha⟩ := handleAnnotation_cases h
  · rw [ha, sizesOf_putFile _ hf]
  · rw [ha, sizesOf_modifySym]

theorem annotations_sizes {p p' : Pass} {annos : List AnnoCall}
    (h : annos.foldlM handleAnnotation p = some p') :
    sizesOf p'.analyzer = sizesOf p.analyzer :=
  foldlM_inv (P := fun q => sizesOf q.analyzer = sizesOf p.analyzer)
    (fun _ _ _ _ hq hs => (annotation_sizes hs).trans hq) rfl h

theorem sizesOf_connectReference {E : Env} {a a' : Analyzer} {sym : AsmSym}
    (h : connectReference E a sym = some a') :
    sizesOf a' = if (resolveReference a sym).isSome then (sizesOf a).addSym else sizesOf a := by
  obtain ⟨hr, rfl⟩ | ⟨d, b, node, hr, hm, rfl⟩ := connectReference_cases h
  · rw [hr]
    rfl
  · rw [hr, ← (makeSymNode_spec hm).1.sizes]
    unfold sizesOf linkReference Sizes.addSym
    dsimp only
    rw [List.length_append, List.length_modify]
    rfl

/-! ## Callbacks -/

theorem fopenMemory_aligned (E : Env) {p : Pass} {m : Memory} (ha : Aligned p.analyzer m)
    (docs : Docs) (filename : CStr) (disk : Option Str) :
    Aligned (asmFopen E p docs filename disk).1.analyzer
      (fopenMemory E p m docs filename disk) := by
  unfold Aligned at ha ⊢
  unfold asmFopen fopenMemory
  cases findContent p.analyzer docs disk filename.chars with
  | none => exact ha
  | some content =>
      have hsources := captureFile_current p.analyzer filename.chars content
      dsimp only
      rw [sizesOf_linkEntry, sizesOf_sourceNode, sizesOf_captureFile, hsources, ← ha]
      have hedge : ∀ (c : Prop) [Decidable c] (m : Memory) (x y : Ptr),
          memorySizes (if c then m.addEdge x y else m) = memorySizes m := by
        intro c _ m x y
        split
        · exact memorySizes_addEdge m x y
        · rfl
      have hcapture : memorySizes { (m.alloc .bytes).1 with
          contents := (m.alloc .bytes).1.contents.put filename.chars (m.alloc .bytes).2 } =
          (memorySizes m).addFile filename.chars := by
        unfold memorySizes Sizes.addFile
        dsimp only
        rw [Table.keys_put]
        rfl
      rw [hedge]
      split <;> split <;> simp only [memorySizes_addSource, hcapture]

theorem reportMemory_aligned (E : Env) {a : Analyzer} {m : Memory} (ha : Aligned a m)
    (type : ReportType) (r : Report) :
    Aligned (asmReport E a type r)
      (if r.region.range.start.line = 0 then m else reportMemory a m r) := by
  unfold Aligned at ha ⊢
  unfold asmReport
  split
  · exact ha
  · have h := sizesOf_report E a (type = .error) r fun location =>
      { Diagnostic.zero with
          location := location, message := r.message, source := ascii "buxn-asm",
          severity := reportSeverity type }
    simp only [decide_eq_true_eq] at h
    rw [memorySizes_reportMemory, ha]
    exact h.symm

theorem chessReportMemory_aligned (E : Env) {a : Analyzer} {m : Memory} (ha : Aligned a m)
    (traceId : Option Int) (type : ReportType) (r : Report) :
    Aligned (chessReport E a traceId type r)
      (if r.region.range.start.line = 0 then m
        else if type = .other then m else reportMemory a m r) := by
  unfold Aligned at ha ⊢
  unfold chessReport
  split
  · exact ha
  · split
    · exact ha
    · have h := sizesOf_report E a (type = .error) r fun location =>
        { Diagnostic.zero with
            location := location, message := chessMessage traceId r.message,
            source := ascii "buxn-chess" }
      simp only [decide_eq_true_eq] at h
      rw [memorySizes_reportMemory, ha]
      exact h.symm

theorem stackMemory_aligned (E : Env) {a : Analyzer} {m : Memory} (ha : Aligned a m)
    (traceId : Int) (s : ChessState) (value port : UInt8) :
    Aligned (chessDeo E a traceId s value port)
      (if port = 0x0e ∧ value = 0x2b then stackMemory a m s else m) := by
  unfold Aligned at ha ⊢
  unfold chessDeo stackMemory Memory.arenaStrcpy
  split
  · dsimp only
    rw [sizesOf_pushDiagnostic, (convertRegion_linesOnly E a s.srcRegion).sizes,
      memorySizes_pushDiagnostic, memorySizes_alloc, ha]
  · exact ha

theorem putSymMemory_aligned {E : Env} {p p' : Pass} {m : Memory} (ha : Aligned p.analyzer m)
    {addr : UInt16} {sym : AsmSym} (name : Addr) (h : putSymNode E p addr sym = some p') :
    Aligned p'.analyzer (putSymMemory p.analyzer m name sym) := by
  unfold Aligned at ha ⊢
  have hdef : ∀ p', putDefinition E p addr sym = some p' → sizesOf p'.analyzer =
      memorySizes (if sym.nameIsGenerated = true then m
        else m.pushDefinition (Memory.newSym (some name)
          (sourcePtr p.analyzer m sym.region.filename.chars))) := by
    intro p' h
    obtain ⟨file, hf, hg, rfl⟩ | ⟨hg, file, a, node, hput⟩ := putDefinition_cases h
    · rw [if_pos hg, sizesOf_noteSymbolByte hf, ha]
    · obtain ⟨mds, lds, hp', -⟩ := hput.analyzer
      have hpushed : sizesOf p'.analyzer = sizesOf (a.pushDefinition node).1 := by
        rw [hp']
        rfl
      rw [if_neg (by simp [hg]), hpushed, sizesOf_pushDefinition, hput.lines.sizes,
        sizesOf_noteSymbolByte hput.opened, Memory.pushDefinition, memorySizes_pushSym, ha]
  have href : memorySizes { m with references := m.references ++ [name] } =
      (memorySizes m).addReference := by
    unfold memorySizes Sizes.addReference
    dsimp only
    rw [List.length_append]
    rfl
  have hsym : sizesOf { p.analyzer with references := p.analyzer.references ++ [sym] } =
      (sizesOf p.analyzer).addReference := by
    unfold sizesOf Sizes.addReference
    dsimp only
    rw [List.length_append]
    rfl
  unfold putSymNode at h
  unfold putSymMemory
  cases ht : sym.type with
  | macroDef =>
      rw [ht] at h
      exact (hdef p' h).symm
  | label =>
      rw [ht] at h
      exact (hdef p' h).symm
  | macroRef =>
      rw [ht] at h
      obtain rfl := Option.some.inj h
      exact href.trans (ha ▸ hsym.symm)
  | labelRef =>
      rw [ht] at h
      obtain rfl := Option.some.inj h
      exact href.trans (ha ▸ hsym.symm)
  | other =>
      rw [ht] at h
      obtain rfl := Option.some.inj h
      exact ha

theorem putSymbolMemory_aligned {E : Env} {p p' : Pass} {m : Memory} (ha : Aligned p.analyzer m)
    {addr : UInt16} {sym : AsmSym} {annos : List AnnoCall} (name : Addr)
    (h : asmPutSymbol E p addr sym annos = some p') :
    Aligned p'.analyzer (putSymbolMemory E p m name addr sym annos) := by
  have hannos : ∀ (id : Option SymId) (m : Memory),
      memorySizes (annos.foldl (annotationMemory id) m) = memorySizes m := by
    intro id m
    clear h
    induction annos generalizing m with
    | nil => rfl
    | cons call annos ih =>
        rw [List.foldl_cons, ih, memorySizes_annotationMemory]
  unfold asmPutSymbol at h
  unfold putSymbolMemory
  split
  · rename_i hrepeats
    rw [if_pos hrepeats] at h
    exact Option.some.inj h ▸ ha
  · rename_i hrepeats
    rw [if_neg hrepeats] at h
    obtain ⟨q, hq, hfold⟩ := Option.bind_eq_some_iff.mp h
    rw [hq]
    have hput := putSymMemory_aligned ha name hq
    exact (hannos _ _).trans (hput.trans (annotations_sizes hfold).symm)

theorem eventMemory_aligned {E : Env} {p p' : Pass} {m : Memory} (ha : Aligned p.analyzer m)
    {ev : Event} (name : Addr) (h : applyEvent E p ev = some p') :
    Aligned p'.analyzer (eventMemory E p m name ev) := by
  cases ev with
  | fopen docs filename disk =>
      obtain rfl := Option.some.inj h
      exact fopenMemory_aligned E ha docs filename disk
  | report type r =>
      obtain rfl := Option.some.inj h
      exact reportMemory_aligned E ha type r
  | putRom addr value =>
      obtain rfl := Option.some.inj h
      exact ha
  | putSymbol addr sym annos => exact putSymbolMemory_aligned ha name h
  | chessReport traceId type r =>
      obtain rfl := Option.some.inj h
      exact chessReportMemory_aligned E ha traceId type r
  | chessDeo traceId s value port =>
      obtain rfl := Option.some.inj h
      exact stackMemory_aligned E ha traceId s value port

/-! ## Loops -/

theorem trackQueueFile_aligned (E : Env) {t : Tracked} (ha : Aligned t.analyzer t.memory)
    (filename : Str) :
    Aligned (trackQueueFile E t filename).analyzer (trackQueueFile E t filename).memory := by
  unfold Aligned trackQueueFile at *
  rw [memorySizes_addSource, sizesOf_doQueueFile, ha]

theorem trackVisit_aligned (E : Env) (docs : Docs) {t : Tracked}
    (ha : Aligned t.analyzer t.memory) (node : SrcId) :
    Aligned (trackVisit E docs t node).1.analyzer (trackVisit E docs t node).1.memory := by
  unfold trackVisit
  split
  · exact ha
  · split
    · exact ha
    · split
      · exact trackQueueFile_aligned E ha _
      · exact ha

theorem trackVisit_analyzer (E : Env) (docs : Docs) (t : Tracked) (node : SrcId) :
    visitQueueNode E docs t.analyzer node =
      ((trackVisit E docs t node).1.analyzer, (trackVisit E docs t node).2) := by
  unfold visitQueueNode trackVisit
  cases t.analyzer.previous.srcs[node]? with
  | none => rfl
  | some src =>
      dsimp only
      by_cases hvisited : (t.analyzer.current.sources.find? src.filename).isSome
      · rw [if_pos hvisited, if_pos hvisited]
      · rw [if_neg hvisited, if_neg hvisited]
        by_cases hopen : (docs.find? src.filename).isSome
        · rw [if_pos hopen, if_pos hopen]
          rfl
        · rw [if_neg hopen, if_neg hopen]

/-- What a loop with its memory does to the analyzer alone, and that the two stay aligned. -/
def Tracks (t : Tracked) (next : Option Tracked) (alone : Option Analyzer) : Prop :=
  Aligned t.analyzer t.memory →
    next.map Tracked.analyzer = alone ∧ ∀ t', next = some t' → Aligned t'.analyzer t'.memory

theorem trackQueueDoc_tracks (E : Env) (docs : Docs) (t : Tracked) (filename : Str) :
    Tracks t (trackQueueDoc E docs t filename) (queueDoc E docs t.analyzer filename) := by
  intro ha
  unfold trackQueueDoc queueDoc
  split
  · exact ⟨rfl, fun t' h => Option.some.inj h ▸ ha⟩
  · dsimp only
    cases t.analyzer.previous.sources.find? filename with
    | some node =>
        exact climb_view (P := fun t : Tracked => Aligned t.analyzer t.memory)
          (V := fun _ => True) (fun _ _ _ _ => trivial)
          (fun s v _ hs => descend_view (fun _ _ _ _ => trivial)
            (fun s v _ hs => trackVisit_aligned E docs hs v)
            (fun s v _ _ => trackVisit_analyzer E docs s v) _ trivial hs)
          _ trivial ha
    | none => exact ⟨rfl, fun t' h => Option.some.inj h ▸ trackQueueFile_aligned E ha filename⟩

theorem trackBegin_tracks (E : Env) (docs : Docs) (t : Tracked) :
    Tracks t (trackBegin E docs t) (analyzeBegin E docs t.analyzer) := by
  intro ha
  have hswap : Aligned (swapCtx t.analyzer) t.memory.swapCtx := by
    simp only [Aligned, memorySizes, sizesOf, Sizes.mk.injEq] at ha ⊢
    exact ⟨rfl, rfl, rfl, ha.2.2.2⟩
  have hdoc : ∀ s, ∀ w ∈ docs.keys, Aligned s.analyzer s.memory →
      (trackQueueDoc E docs s w).map Tracked.analyzer = queueDoc E docs s.analyzer w ∧
        ∀ s', trackQueueDoc E docs s w = some s' → Aligned s'.analyzer s'.memory :=
    fun s w _ hs => trackQueueDoc_tracks E docs s w hs
  obtain ⟨hview, hnext⟩ := foldlM_view (P := fun t : Tracked => Aligned t.analyzer t.memory)
    (s := ⟨swapCtx t.analyzer, t.memory.swapCtx⟩) hdoc hswap
  unfold trackBegin analyzeBegin
  rw [← hview]
  cases hq : docs.keys.foldlM (trackQueueDoc E docs)
      ⟨swapCtx t.analyzer, t.memory.swapCtx⟩ with
  | none => exact ⟨rfl, fun t' h => absurd h (by simp)⟩
  | some q =>
      refine ⟨rfl, fun t' h => ?_⟩
      obtain rfl := Option.some.inj h
      have hq' := hnext q hq
      simp only [Aligned, memorySizes, sizesOf, Sizes.mk.injEq] at hq' ⊢
      exact ⟨hq'.1, hq'.2.1, hq'.2.2.1, rfl, hq'.2.2.2.2.1, rfl⟩

theorem trackCarrySymbol_aligned (source : SrcId) (last : Nat) {t : Tracked}
    (ha : Aligned t.analyzer t.memory) (id : SymId) :
    Aligned (trackCarrySymbol source last t id).analyzer
      (trackCarrySymbol source last t id).memory := by
  unfold Aligned trackCarrySymbol carrySymbol at *
  dsimp only
  cases t.analyzer.previous.syms[id]? with
  | none => exact ha
  | some sym =>
      dsimp only
      split
      · exact ha
      · rw [memorySizes_copySymbol, sizesOf_pushDefinition, ha]

theorem trackCarrySymbols_tracks (source : SrcId) (last : Nat) (ids : List SymId) (t : Tracked)
    (ha : Aligned t.analyzer t.memory) :
    (ids.foldl (trackCarrySymbol source last) t).analyzer =
        ids.foldl (carrySymbol source last) t.analyzer ∧
      Aligned (ids.foldl (trackCarrySymbol source last) t).analyzer
        (ids.foldl (trackCarrySymbol source last) t).memory := by
  induction ids generalizing t with
  | nil => exact ⟨rfl, ha⟩
  | cons id ids ih => exact ih _ (trackCarrySymbol_aligned source last ha id)

theorem trackCarryFile_tracks (t : Tracked) (e : Str × File) (ha : Aligned t.analyzer t.memory) :
    (trackCarryFile t e).analyzer = carryFile t.analyzer e.1 e.2 ∧
      Aligned (trackCarryFile t e).analyzer (trackCarryFile t e).memory := by
  unfold trackCarryFile carryFile
  split
  · cases t.analyzer.previous.srcOf e.1 with
    | none => exact ⟨rfl, ha⟩
    | some previousSrc =>
        cases t.analyzer.current.sources.find? e.1 with
        | none => exact ⟨rfl, ha⟩
        | some currentSrc => exact trackCarrySymbols_tracks _ _ _ t ha
  · exact ⟨rfl, ha⟩

theorem trackCarryForward_tracks (es : List (Str × File)) (t : Tracked)
    (ha : Aligned t.analyzer t.memory) :
    (es.foldl trackCarryFile t).analyzer =
        es.foldl (fun a e => carryFile a e.1 e.2) t.analyzer ∧
      Aligned (es.foldl trackCarryFile t).analyzer (es.foldl trackCarryFile t).memory := by
  induction es generalizing t with
  | nil => exact ⟨rfl, ha⟩
  | cons e es ih =>
      obtain ⟨hview, hnext⟩ := trackCarryFile_tracks t e ha
      rw [List.foldl_cons, List.foldl_cons, ← hview]
      exact ih _ hnext

theorem connectMemory_aligned {E : Env} {a a' : Analyzer} {m : Memory} (ha : Aligned a m)
    (name : Ptr) {sym : AsmSym} (h : connectReference E a sym = some a') :
    Aligned a' (connectMemory a m name sym) := by
  unfold Aligned at ha ⊢
  rw [sizesOf_connectReference h]
  unfold connectMemory
  cases resolveReference a sym with
  | none => exact ha
  | some d => simp [Memory.pushReference, ha]

theorem trackConnect_tracks (E : Env) (syms : List AsmSym) (names : List Addr) (t : Tracked) :
    Tracks t (trackConnect E syms names t) (syms.foldlM (connectReference E) t.analyzer) := by
  induction syms generalizing names t with
  | nil => exact fun ha => ⟨rfl, fun t' h => Option.some.inj h ▸ ha⟩
  | cons sym syms ih =>
      intro ha
      unfold trackConnect
      rw [List.foldlM_cons]
      cases hc : connectReference E t.analyzer sym with
      | none => exact ⟨rfl, fun t' h => absurd h (by simp)⟩
      | some a => exact ih names.tail _ (connectMemory_aligned ha names.head? hc)

theorem trackLeave_tracks (E : Env) (t : Tracked) :
    Tracks t (trackLeave E t) (leavePass E t.analyzer) := by
  intro ha
  obtain ⟨hview, hnext⟩ := trackCarryForward_tracks t.analyzer.files.entries t ha
  have hconnect := trackConnect_tracks E
    (t.analyzer.files.entries.foldl trackCarryFile t).analyzer.references
    (t.analyzer.files.entries.foldl trackCarryFile t).memory.references _ hnext
  unfold trackLeave leavePass carryForward
  dsimp only
  rw [← hview]
  exact hconnect

/-! ## Runs -/

/-- The steps of the machine that a step of the tracked machine is. -/
def machineLabels : TrackedLabel → List Label
  | .asmAlloc => []
  | .step l _ => [l]

/-- A step that only the machine decides: `memory` is what becomes of the memory. -/
theorem map_machine {E : Env} {m : Machine} {l : Label} (memory : Memory)
    (ha : ∀ m', StepCase E m l m' → Aligned m'.analyzer memory) :
    ((step E m l).map fun m' => (⟨m', memory⟩ : TrackedMachine)).map TrackedMachine.machine =
        step E m l ∧
      ∀ s', ((step E m l).map fun m' => (⟨m', memory⟩ : TrackedMachine)) = some s' →
        Aligned s'.machine.analyzer s'.memory := by
  refine ⟨?_, fun s' h => ?_⟩
  · cases step E m l <;> rfl
  · obtain ⟨m', hm, rfl⟩ := Option.map_eq_some_iff.mp h
    exact ha m' (step_cases hm)

/-- A step that is a loop, and leads to the phase `p`. -/
theorem Tracks.machine {t : Tracked} {next : Option Tracked} {alone : Option Analyzer}
    (ht : Tracks t next alone) (ha : Aligned t.analyzer t.memory) (p : Phase) :
    (next.map fun t => (⟨⟨t.analyzer, p⟩, t.memory⟩ : TrackedMachine)).map
        TrackedMachine.machine = alone.map (fun a => ⟨a, p⟩) ∧
      ∀ s', (next.map fun t => (⟨⟨t.analyzer, p⟩, t.memory⟩ : TrackedMachine)) = some s' →
        Aligned s'.machine.analyzer s'.memory := by
  obtain ⟨hview, hnext⟩ := ht ha
  refine ⟨?_, fun s' h => ?_⟩
  · rw [← hview, Option.map_map, Option.map_map]
    rfl
  · obtain ⟨t', ht', rfl⟩ := Option.map_eq_some_iff.mp h
    exact hnext t' ht'

/-- With its memory the machine can do what it can do alone, and it stays aligned. -/
theorem trackedMachineStep_machine (E : Env) {s : TrackedMachine}
    (ha : Aligned s.machine.analyzer s.memory) (name : Addr) (l : Label) :
    (trackedMachineStep E s name l).map TrackedMachine.machine = step E s.machine l ∧
      ∀ s', trackedMachineStep E s name l = some s' → Aligned s'.machine.analyzer s'.memory := by
  cases l with
  | start docs =>
      unfold trackedMachineStep step
      dsimp only
      cases s.machine.phase with
      | idle =>
          exact (trackBegin_tracks E docs ⟨s.machine.analyzer, s.memory⟩).machine ha (.loop 0)
      | _ => exact ⟨rfl, fun s' h => absurd h (by simp)⟩
  | skip =>
      refine map_machine s.memory fun m' hm => ?_
      cases hm with
      | skip _ _ _ => exact ha
  | enter =>
      refine map_machine { s.memory with references := [] } fun m' hm => ?_
      cases hm with
      | enter _ _ _ =>
          simp only [Aligned, memorySizes, sizesOf, startPass, Sizes.mk.injEq] at ha ⊢
          exact ⟨ha.1, ha.2.1, ha.2.2.1, ha.2.2.2.1, rfl, ha.2.2.2.2.2⟩
  | event ev =>
      unfold trackedMachineStep
      dsimp only
      cases hctx : s.machine.phase.passCtx with
      | some ctx =>
          refine map_machine (eventMemory E ⟨s.machine.analyzer, ctx⟩ s.memory name ev)
            fun m' hm => ?_
          cases hm with
          | event hctx' hev =>
              obtain rfl := Option.some.inj (hctx.symm.trans hctx')
              exact eventMemory_aligned ha name hev
      | none =>
          refine ⟨?_, fun s' h => absurd h (by simp)⟩
          simp only [step, hctx]
          rfl
  | asmDone success =>
      refine map_machine s.memory fun m' hm => ?_
      cases hm with
      | asmDone _ _ _ => exact ha
      | asmEnded _ _ => exact ha
  | chessDone =>
      refine map_machine s.memory fun m' hm => ?_
      cases hm with
      | chessDone _ => exact ha
  | leave =>
      unfold trackedMachineStep step
      dsimp only
      cases s.machine.phase with
      | ended i =>
          exact (trackLeave_tracks E ⟨s.machine.analyzer, s.memory⟩).machine ha (.loop (i + 1))
      | _ => exact ⟨rfl, fun s' h => absurd h (by simp)⟩
  | finish =>
      refine map_machine s.memory fun m' hm => ?_
      cases hm with
      | finish _ _ =>
          simp only [Aligned, memorySizes, sizesOf, analyzeFinish, Sizes.mk.injEq] at ha ⊢
          have hsorted := (E.qsort_perm s.machine.analyzer.uriOf
            s.machine.analyzer.diagnostics).length_eq
          exact ⟨ha.1, ha.2.1, ha.2.2.1, ha.2.2.2.1, ha.2.2.2.2.1, ha.2.2.2.2.2.trans hsorted.symm⟩

theorem trackedStep_run {E : Env} {s s' : TrackedMachine}
    (ha : Aligned s.machine.analyzer s.memory) {l : TrackedLabel}
    (h : trackedStep E s l = some s') :
    run (step E) s.machine (machineLabels l) = some s'.machine ∧
      Aligned s'.machine.analyzer s'.memory := by
  cases l with
  | asmAlloc =>
      simp only [trackedStep] at h
      split at h
      · obtain rfl := Option.some.inj h
        exact ⟨rfl, ha⟩
      · cases h
  | step l name =>
      obtain ⟨hview, hnext⟩ := trackedMachineStep_machine E ha name l
      rw [show trackedMachineStep E s name l = some s' from h, Option.map_some] at hview
      exact ⟨by rw [machineLabels, run_cons, ← hview]; rfl, hnext s' h⟩

/-- A run of the tracked machine is a run of the machine. -/
theorem trackedRun_machine {E : Env} {s s' : TrackedMachine} {ls : List TrackedLabel}
    (ha : Aligned s.machine.analyzer s.memory) (h : run (trackedStep E) s ls = some s') :
    run (step E) s.machine (ls.flatMap machineLabels) = some s'.machine ∧
      Aligned s'.machine.analyzer s'.memory := by
  induction ls generalizing s with
  | nil =>
      obtain rfl := Option.some.inj h
      exact ⟨rfl, ha⟩
  | cons l ls ih =>
      obtain ⟨u, hu, h⟩ := run_cons_some h
      obtain ⟨hfirst, hau⟩ := trackedStep_run ha hu
      obtain ⟨hrest, has⟩ := ih hau h
      exact ⟨by rw [List.flatMap_cons, run_append, hfirst, Option.bind_some, hrest], has⟩

end BuxnLs.Analysis
