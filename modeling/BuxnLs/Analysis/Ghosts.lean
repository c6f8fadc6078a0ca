/-
  Old symbols in a file that the assembler had no error in. A pass end carries old symbols into
  each file that is marked, and buxn-chess marks files as the assembler does. `signs f` records
  what decides this for a file: its definitions, its chess errors and the pass ends. A run leaves
  no old symbol in the list exactly when each pass end behind a chess error comes behind a
  definition at or after every old one (`no_ghosts_iff`).
-/
import BuxnLs.Analysis.Once

namespace BuxnLs.Analysis

open BuxnLs.Lib BuxnLs.Model Relation

/-! ## Errors -/

/-- The file of a report about a source region, when it is an error. -/
def errorFile (type : ReportType) (r : Report) : Option Str :=
  if type = .error ∧ r.region.range.start.line ≠ 0 then some r.region.filename.chars else none

/-- The file in which an event is an error of the assembler. -/
def asmErrorIn : Event → Option Str
  | .report type r => errorFile type r
  | _ => none

/-- The file in which an event is an error of buxn-chess. -/
def chessErrorIn : Event → Option Str
  | .chessReport _ type r => errorFile type r
  | _ => none

def isOpen (a : Analyzer) (f : Str) : Prop := (a.files.find? f).isSome = true

instance (a : Analyzer) (f : Str) : Decidable (isOpen a f) :=
  inferInstanceAs (Decidable (_ = true))

/-- No file gets a mark, or loses one. -/
def SameErrors (a b : Analyzer) : Prop := ∀ f, erred b f = erred a f

theorem SameErrors.of_files {a b : Analyzer} (h : b.files = a.files) : SameErrors a b :=
  fun f => (marks_of_files h f).2

theorem SameErrors.trans {a b c : Analyzer} (h : SameErrors a b) (h' : SameErrors b c) :
    SameErrors a c :=
  fun f => (h' f).trans (h f)

theorem erred_put {a a' : Analyzer} {filename : Str} (file' : File)
    (ha : a'.files = a.files.put filename file') (f : Str) :
    erred a' f = if filename = f then file'.hasError else erred a f := by
  unfold erred
  rw [ha, Table.find?_put]
  split <;> rfl

theorem SameErrors.put {a a' : Analyzer} {filename : Str} {file : File} (file' : File)
    (hf : a.files.find? filename = some file) (ha : a'.files = a.files.put filename file')
    (herr : file'.hasError = file.hasError) : SameErrors a a' := by
  intro f
  rw [erred_put file' ha]
  split
  · rename_i h
    subst h
    unfold erred
    rw [hf, herr]
    rfl
  · rfl

theorem tail_sameErrors (E : Env) : TailKeeps E SameErrors where
  refl := fun _ => .of_files rfl
  trans := SameErrors.trans
  convert := fun a region f => ((convertRegion_linesOnly E a region).marks_eq f).2
  push := fun _ _ => .of_files rfl

theorem markError_erred (a : Analyzer) (filename f : Str) :
    erred (markError a filename) f = true ↔ erred a f = true ∨ filename = f ∧ isOpen a f := by
  unfold markError
  split
  · next hnone =>
      refine ⟨Or.inl, ?_⟩
      rintro (h | ⟨rfl, hopen⟩)
      · exact h
      · rw [isOpen, hnone] at hopen
        cases hopen
  · next file hf =>
      rw [erred_put { file with hasError := true } rfl]
      split
      · next h =>
          subst h
          exact iff_of_true rfl (Or.inr ⟨rfl, by rw [isOpen, hf]; rfl⟩)
      · next h =>
          refine ⟨Or.inl, ?_⟩
          rintro (he | ⟨he, -⟩)
          · exact he
          · exact absurd he h

theorem markReport_erred (a : Analyzer) (type : ReportType) (r : Report) (f : Str) :
    erred (markReport a type r) f = true ↔
      erred a f = true ∨ (type = .error ∧ r.region.filename.chars = f) ∧ isOpen a f := by
  unfold markReport
  by_cases htype : type = .error
  · rw [if_pos htype, markError_erred]
    simp [htype]
  · rw [if_neg htype]
    simp [htype]

/-- A report leaves the mark of its error, and nothing else. -/
theorem reportTail_erred {E : Env} {a : Analyzer} {type : ReportType} {r : Report}
    (hline : r.region.range.start.line ≠ 0) (d : Location → Diagnostic) (f : Str) :
    erred (reportTail E (markReport a type r) r d) f = true ↔
      erred a f = true ∨ errorFile type r = some f ∧ isOpen a f := by
  rw [(tail_sameErrors E).tail (markReport a type r) r d f, markReport_erred, errorFile]
  simp [hline]

theorem asmFopen_sameErrors (E : Env) (p : Pass) (docs : Docs) (filename : CStr)
    (disk : Option Str) :
    SameErrors p.analyzer (asmFopen E p docs filename disk).1.analyzer := by
  intro f
  unfold erred
  rcases asmFopen_unmarked E p docs filename disk f with h | ⟨-, hnone, file, hfile, -, herr⟩
  · rw [h]
  · rw [hnone, hfile]
    exact herr

theorem annotations_sameErrors {annos : List AnnoCall} {p p' : Pass}
    (h : annos.foldlM handleAnnotation p = some p') : SameErrors p.analyzer p'.analyzer := by
  refine foldlM_inv (P := fun q => SameErrors p.analyzer q.analyzer)
    (fun q q' call _ hq hs => hq.trans ?_) (.of_files rfl) h
  obtain ⟨-, file, sem, hf, ha⟩ | ⟨id, g, scope, -, -, -, ha⟩ := handleAnnotation_cases hs
  · rw [ha]
    exact .put { file with zeroPageSemantics := sem } hf rfl rfl
  · rw [ha]
    exact .of_files rfl

theorem noteSymbolByte_sameErrors {a : Analyzer} {filename : Str} {file : File} (byte : Nat)
    (hf : a.files.find? filename = some file) :
    SameErrors a (noteSymbolByte a filename file byte) := by
  unfold noteSymbolByte
  split
  · exact .put { file with lastSymbolByte := byte } hf rfl rfl
  · exact .of_files rfl

theorem putSymNode_sameErrors {E : Env} {p p' : Pass} {addr : UInt16} {sym : AsmSym}
    (h : putSymNode E p addr sym = some p') : SameErrors p.analyzer p'.analyzer := by
  obtain ⟨-, hdef⟩ | ⟨-, refs, rfl⟩ := putSymNode_type_cases h
  · obtain ⟨file, hf, -, rfl⟩ | ⟨-, file, a, node, hput⟩ := putDefinition_cases hdef
    · exact noteSymbolByte_sameErrors _ hf
    · obtain ⟨mds, lds, ha, -⟩ := hput.analyzer
      rw [ha]
      have hnote := noteSymbolByte_sameErrors sym.region.range.start.byte hput.opened
      exact hnote.trans fun f => (hput.lines.marks_eq f).2
  · exact .of_files rfl

/-- A callback marks a file exactly when it reports an error in it and it is open. -/
theorem applyEvent_erred {E : Env} {p p' : Pass} {ev : Event} (h : applyEvent E p ev = some p')
    (f : Str) :
    erred p'.analyzer f = true ↔ erred p.analyzer f = true ∨
      (asmErrorIn ev = some f ∨ chessErrorIn ev = some f) ∧ isOpen p.analyzer f := by
  have hsame : SameErrors p.analyzer p'.analyzer → asmErrorIn ev = none →
      chessErrorIn ev = none → (erred p'.analyzer f = true ↔ erred p.analyzer f = true ∨
        (asmErrorIn ev = some f ∨ chessErrorIn ev = some f) ∧ isOpen p.analyzer f) := by
    intro hs ha hc
    rw [hs f, ha, hc]
    simp
  cases ev with
  | fopen docs filename disk =>
      cases h
      exact hsame (asmFopen_sameErrors E p docs filename disk) rfl rfl
  | report type r =>
      cases h
      show erred (asmReport E p.analyzer type r) f = true ↔ _
      rw [asmReport_eq]
      split
      · next hline => simp [asmErrorIn, chessErrorIn, errorFile, hline]
      · next hline =>
          rw [reportTail_erred hline]
          simp [asmErrorIn, chessErrorIn]
  | putRom addr value =>
      cases h
      exact hsame (.of_files rfl) rfl rfl
  | chessReport traceId type r =>
      cases h
      show erred (chessReport E p.analyzer traceId type r) f = true ↔ _
      rw [chessReport_eq]
      split
      · next hskip =>
          have hnone : errorFile type r = none := by
            rcases hskip with hline | rfl
            · simp [errorFile, hline]
            · rfl
          simp [asmErrorIn, chessErrorIn, hnone]
      · next hskip =>
          rw [reportTail_erred fun hline => hskip (Or.inl hline)]
          simp [asmErrorIn, chessErrorIn]
  | chessDeo traceId s value port =>
      cases h
      exact hsame ((tail_sameErrors E).chessDeo p.analyzer traceId s value port) rfl rfl
  | putSymbol addr sym annos =>
      refine hsame ?_ rfl rfl
      obtain ⟨-, rfl⟩ | ⟨-, q, hq, hannos⟩ := asmPutSymbol_cases h
      · exact .of_files rfl
      · have hann := annotations_sameErrors hannos
        exact (putSymNode_sameErrors hq).trans hann

/-! ## The record of a file -/

/-- What decides whether old symbols are carried into a file. -/
inductive Sign where
  | symbol (byte : Nat)
  | error
  | passEnd
deriving DecidableEq

/-- The definition that an event notes for the file `f`. -/
def symbolSigns (f : Str) (m : Machine) (ev : Event) : List Sign :=
  match m.phase.passCtx.bind fun ctx => notedBy ctx ev with
  | some (file, byte) => if file = f then [.symbol byte] else []
  | none => []

/-- The chess error that an event is in the file `f`, if it is open. -/
def errorSigns (f : Str) (m : Machine) (ev : Event) : List Sign :=
  if chessErrorIn ev = some f ∧ isOpen m.analyzer f then [.error] else []

def signs (f : Str) (m : Machine) : Label → List Sign
  | .event ev => symbolSigns f m ev ++ errorSigns f m ev
  | .leave => [.passEnd]
  | _ => []

/-- A definition at `byte` or behind it has come; byte 0 needs none. -/
def Passed (byte : Nat) (record : List Sign) : Prop :=
  byte = 0 ∨ ∃ b, Sign.symbol b ∈ record ∧ byte ≤ b

/-- Each pass end behind a chess error comes behind a definition at or after `byte`. -/
def Cleared (byte : Nat) (record : List Sign) : Prop :=
  ∀ before, before ++ [.passEnd] <+: record → .error ∈ before → Passed byte before

theorem cleared_nil (byte : Nat) : Cleared byte [] := by
  intro before h
  simp at h

theorem cleared_concat (byte : Nat) (record : List Sign) (o : Sign) :
    Cleared byte (record ++ [o]) ↔
      Cleared byte record ∧ (o = .passEnd → .error ∈ record → Passed byte record) := by
  unfold Cleared
  simp only [List.prefix_concat_iff, List.append_singleton_inj]
  constructor
  · intro h
    exact ⟨fun before hb => h before (Or.inr hb), fun ho => h record (Or.inl ⟨rfl, ho.symm⟩)⟩
  · rintro ⟨hold, hlast⟩ before (⟨rfl, ho⟩ | hb)
    · exact hlast ho.symm
    · exact hold before hb

/-- Only pass ends matter. -/
theorem cleared_append (byte : Nat) (record : List Sign) {new : List Sign}
    (h : Sign.passEnd ∉ new) : Cleared byte (record ++ new) ↔ Cleared byte record := by
  induction new generalizing record with
  | nil => rw [List.append_nil]
  | cons o new ih =>
      rw [List.mem_cons, not_or] at h
      rw [List.append_cons, ih _ h.2, cleared_concat]
      exact ⟨And.left, fun hold => ⟨hold, fun ho => absurd ho.symm h.1⟩⟩

theorem passEnd_notMem_signs (f : Str) (m : Machine) (ev : Event) :
    Sign.passEnd ∉ signs f m (.event ev) := by
  simp only [signs, symbolSigns, errorSigns, List.mem_append, not_or]
  constructor
  · split
    · split <;> simp
    · simp
  · split <;> simp

theorem error_mem_signs_iff (f : Str) (m : Machine) (ev : Event) :
    Sign.error ∈ signs f m (.event ev) ↔ chessErrorIn ev = some f ∧ isOpen m.analyzer f := by
  have hno : Sign.error ∉ symbolSigns f m ev := by
    unfold symbolSigns
    split
    · split <;> simp
    · simp
  simp only [signs, List.mem_append, hno, false_or, errorSigns]
  split <;> simp [*]

theorem symbol_mem_signs_iff {f : Str} {m : Machine} {ctx : AsmCtx}
    (hctx : m.phase.passCtx = some ctx) (ev : Event) (b : Nat) :
    Sign.symbol b ∈ signs f m (.event ev) ↔ notedBy ctx ev = some (f, b) := by
  have hno : Sign.symbol b ∉ errorSigns f m ev := by
    unfold errorSigns
    split <;> simp
  simp only [signs, List.mem_append, hno, or_false, symbolSigns, hctx, Option.bind_some]
  cases hn : notedBy ctx ev with
  | none => simp
  | some e =>
      obtain ⟨file, byte⟩ := e
      dsimp only
      by_cases hf : file = f
      · rw [if_pos hf]
        simp [hf, eq_comm]
      · rw [if_neg hf]
        simp [hf]

/-- `last_symbol_byte` of the file moves with the record. -/
theorem MarksStep.passed {f : Str} {m : Machine} {a' : Analyzer} {ctx : AsmCtx} {ev : Event}
    (h : MarksStep (notedBy ctx ev) m.analyzer a') (hctx : m.phase.passCtx = some ctx)
    {record : List Sign} (hlast : ∀ byte, byte ≤ lastByteOf m.analyzer f ↔ Passed byte record)
    (byte : Nat) : byte ≤ lastByteOf a' f ↔ Passed byte (record ++ signs f m (.event ev)) := by
  have hmem := symbol_mem_signs_iff (f := f) hctx ev
  have hl := h.last f
  have hsplit : Passed byte (record ++ signs f m (.event ev)) ↔
      Passed byte record ∨ ∃ b, notedBy ctx ev = some (f, b) ∧ byte ≤ b := by
    simp only [Passed, List.mem_append, hmem, or_and_right, exists_or, or_assoc]
  rw [hsplit, ← hlast byte, hl]
  cases hn : notedBy ctx ev with
  | none => simp
  | some e =>
      obtain ⟨file, b⟩ := e
      rw [Option.filter_some]
      by_cases hf : file = f
      · rw [if_pos (by simpa using hf), Option.elim_some]
        simp [hf]
      · rw [if_neg (by simpa using hf)]
        simp [hf]

/-! ## One run -/

/-- The node was created from a symbol of this run. -/
def IsEmitted (n : SymNode) : Prop := ∃ entry, n.origin = .emitted entry

theorem not_isEmitted_of_mem_carriedInto {a : Analyzer} {f : Str} {n : SymNode}
    (h : n ∈ carriedInto a f) : ¬ IsEmitted n := by
  obtain ⟨-, s, -, old, -, he⟩ := carriedInto_copyOf h
  rintro ⟨entry, ho⟩
  rw [he] at ho
  cases ho

/-- A pass end carries nothing when the file is not marked or all old symbols are passed. -/
theorem carriedInto_eq_nil_iff {a : Analyzer} (ho : Opened a) (f : Str) :
    carriedInto a f = [] ↔
      (erred a f = true → ∀ old ∈ listed a.previous f, old.byteOffset ≤ lastByteOf a f) := by
  unfold carriedInto erred lastByteOf
  cases hfile : a.files.find? f with
  | none => simp
  | some file =>
      obtain ⟨source, hsource⟩ := Option.isSome_iff_exists.mp (ho f (by rw [hfile]; rfl))
      simp only [Option.elim_some, carriedOf, hsource]
      by_cases he : file.hasError = true
      · rw [if_pos he]
        unfold listed definitionsOf
        cases hsrc : a.previous.srcOf f with
        | none => simp [AnalyzerCtx.nodes]
        | some src =>
            simp only [Option.elim_some, List.eq_nil_iff_forall_not_mem, mem_carriedNodes_iff,
              mem_nodes_iff, he, forall_const]
            constructor
            · rintro hno old ⟨s, hs, hold⟩
              by_contra hlt
              exact hno _ ⟨s, hs, old, hold, Nat.lt_of_not_le hlt, rfl⟩
            · rintro hle n ⟨s, hs, old, hold, hlt, -⟩
              exact absurd (hle old ⟨s, hs, hold⟩) (Nat.not_le.mpr hlt)
      · rw [if_neg he]
        simp [he]

/-- What a run and the record of `f` have to do with each other: `previous` is what the run
    found. -/
structure GhostInv (E : Env) (previous : AnalyzerCtx) (f : Str) (m : Machine)
    (record : List Sign) : Prop where
  ok : MachineOK E m
  found : m.analyzer.previous = previous
  opened : Opened m.analyzer
  last : ∀ byte, byte ≤ lastByteOf m.analyzer f ↔ Passed byte record
  error : erred m.analyzer f = true ↔ .error ∈ record
  fresh : (∀ n ∈ coresOf m.analyzer.current f, IsEmitted n) ↔
    ∀ old ∈ listed previous f, Cleared old.byteOffset record

theorem start_ghostInv {E : Env} {m m' : Machine} {docs : Docs} (hm : MachineOK E m)
    (h : step E m (.start docs) = some m') (f : Str) :
    GhostInv E m.analyzer.current f m' [] := by
  obtain ⟨hprev, hstart⟩ := start_lists h
  obtain ⟨hcores, hclosed, -⟩ := hstart f
  obtain ⟨hlast, herr⟩ := marks_of_closed hclosed
  refine ⟨step_ok hm h, hprev, fun g hg => ?_, fun byte => ?_, ?_, ?_⟩
  · rw [((hstart g).2).1] at hg
    cases hg
  · rw [hlast]
    simp [Passed]
  · rw [herr]
    simp
  · rw [hcores]
    exact iff_of_true (fun n hn => absurd hn List.not_mem_nil) fun old _ => cleared_nil _

/-- A run goes on, and the assembler has no error in `f`. -/
def NoAsmError (f : Str) : Label → Prop
  | .start _ => False
  | .event ev => asmErrorIn ev ≠ some f
  | _ => True

instance (f : Str) : ∀ l, Decidable (NoAsmError f l)
  | .start _ => isFalse id
  | .event ev => inferInstanceAs (Decidable (asmErrorIn ev ≠ some f))
  | .skip | .enter | .asmDone _ | .chessDone | .leave | .finish => isTrue trivial

theorem step_ghostInv {E : Env} {previous : AnalyzerCtx} {f : Str} {m m' : Machine} {l : Label}
    {record : List Sign} (hinv : GhostInv E previous f m record) (hasm : NoAsmError f l)
    (h : step E m l = some m') : GhostInv E previous f m' (record ++ signs f m l) := by
  obtain ⟨hm, hprev, hopen, hlast, herr, hfresh⟩ := hinv
  have hl : ∀ docs, l ≠ .start docs := by
    rintro docs rfl
    exact hasm
  have hprev' := (step_frame hm h hl).1.trans hprev
  have hok := step_ok hm h
  -- what a callback records of errors
  have hevent : ∀ ev, l = .event ev → (erred m'.analyzer f = true ↔
      .error ∈ record ++ signs f m l) := by
    rintro ev rfl
    cases step_cases h with
    | event hctx hev =>
        rw [List.mem_append, error_mem_signs_iff, ← herr]
        have hmark := applyEvent_erred hev f
        rwa [or_iff_right (show asmErrorIn ev ≠ some f from hasm)] at hmark
  have hclear : ∀ ev, l = .event ev → ∀ byte,
      (Cleared byte (record ++ signs f m l) ↔ Cleared byte record) := by
    rintro ev rfl byte
    exact cleared_append byte record (passEnd_notMem_signs f m ev)
  cases step_lists hm h hl with
  | quiet hev hle hc hf _ =>
      have hsigns : signs f m l = [] := by
        cases l with
        | event ev => exact absurd rfl (hev ev)
        | leave => exact absurd rfl hle
        | _ => rfl
      rw [hsigns, List.append_nil]
      obtain ⟨hlast', herr'⟩ := marks_of_files hf f
      refine ⟨hok, hprev', hopen.of_keys (fun g => by rw [hf]) (by rw [hc]), ?_, ?_, ?_⟩
      · rw [hlast']
        exact hlast
      · rw [herr']
        exact herr
      · rw [hc]
        exact hfresh
  | event hctx _ hsame hmarks _ =>
      refine ⟨hok, hprev', hmarks.opened hopen, hmarks.passed hctx hlast, hevent _ rfl, ?_⟩
      rw [hsame f, hfresh]
      simp only [hclear _ rfl]
  | emit hctx _ hnew hmarks _ =>
      refine ⟨hok, hprev', hmarks.opened hopen, hmarks.passed hctx hlast, hevent _ rfl, ?_⟩
      obtain ⟨n, hnode, hcores⟩ := hnew
      simp only [hclear _ rfl]
      rw [hcores f, ← hfresh]
      split
      · rw [List.forall_mem_cons]
        exact and_iff_right ⟨_, hnode.origin⟩
      · rfl
  | leave hcores hmarks hopened =>
      obtain ⟨hlast', herr'⟩ := hmarks f
      have hpassed : ∀ byte, Passed byte (record ++ signs f m .leave) ↔ Passed byte record := by
        intro byte
        simp [Passed, signs]
      refine ⟨hok, hprev', hopened hopen, fun byte => ?_, ?_, ?_⟩
      · rw [hlast', hpassed]
        exact hlast byte
      · rw [herr', herr]
        simp [signs]
      · -- nothing is carried exactly when the old symbols are passed
        have hnil : (∀ n ∈ (carriedInto m.analyzer f).reverse, IsEmitted n) ↔
            carriedInto m.analyzer f = [] := by
          constructor
          · intro hall
            apply List.eq_nil_iff_forall_not_mem.mpr
            intro n hn
            exact not_isEmitted_of_mem_carriedInto hn (hall n (List.mem_reverse.mpr hn))
          · intro he n hn
            rw [he] at hn
            cases hn
        rw [hcores f, List.forall_mem_append, hnil, hfresh, carriedInto_eq_nil_iff hopen, hprev,
          herr]
        simp only [signs, cleared_concat, hlast, forall_const]
        constructor
        · rintro ⟨hpass, hold⟩ old hmem
          exact ⟨hold old hmem, fun he => hpass he old hmem⟩
        · intro hall
          exact ⟨fun he old hmem => (hall old hmem).2 he, fun old hmem => (hall old hmem).1⟩

/-! ## Where the nodes of a run come from -/

/-- The definitions that a run lists, with the entries of their passes. -/
def emissions (E : Env) (m : Machine) (ls : List Label) : List (SrcId × AsmSym) :=
  collect (step E) (fun m l => (emission m l).toList) m ls

/-- The node was created for the definition that a callback delivered. -/
structure CreatedFrom (f : Str) (e : SrcId × AsmSym) (n : SymNode) : Prop where
  origin : n.origin = .emitted e.1
  occurrence : Analysis.occurrence n = occurrenceOf e.2
  file : e.2.region.filename.chars = f

/-- The file lists only nodes created from symbols that the run emitted. -/
def NoGhosts (c : AnalyzerCtx) (f : Str) (emitted : List (SrcId × AsmSym)) : Prop :=
  ∀ n ∈ listed c f, ∃ e ∈ emitted, CreatedFrom f e n

theorem createdFrom_core_iff (f : Str) (e : SrcId × AsmSym) (n : SymNode) :
    CreatedFrom f e (core n) ↔ CreatedFrom f e n := by
  constructor
  · rintro ⟨ho, hocc, hf⟩
    rw [core_origin] at ho
    rw [occurrence_core] at hocc
    exact ⟨ho, hocc, hf⟩
  · rintro ⟨ho, hocc, hf⟩
    exact ⟨by rw [core_origin, ho], by rw [occurrence_core, hocc], hf⟩

theorem noGhosts_iff_cores (c : AnalyzerCtx) (f : Str) (emitted : List (SrcId × AsmSym)) :
    NoGhosts c f emitted ↔ ∀ n ∈ coresOf c f, ∃ e ∈ emitted, CreatedFrom f e n := by
  unfold NoGhosts coresOf
  simp only [List.forall_mem_map, createdFrom_core_iff]

/-- The fresh nodes of a file come from the definitions so far. -/
structure CreatedInv (E : Env) (f : Str) (m : Machine) (emitted : List (SrcId × AsmSym)) :
    Prop where
  ok : MachineOK E m
  created : ∀ n ∈ coresOf m.analyzer.current f, IsEmitted n → ∃ e ∈ emitted, CreatedFrom f e n

theorem step_createdInv {E : Env} {f : Str} {m m' : Machine} {l : Label}
    {emitted : List (SrcId × AsmSym)} (hinv : CreatedInv E f m emitted)
    (hl : ∀ docs, l ≠ .start docs) (h : step E m l = some m') :
    CreatedInv E f m' (emitted ++ (emission m l).toList) := by
  obtain ⟨hm, hcreated⟩ := hinv
  refine ⟨step_ok hm h, fun n hn hfresh => ?_⟩
  have hold : n ∈ coresOf m.analyzer.current f →
      ∃ e ∈ emitted ++ (emission m l).toList, CreatedFrom f e n := by
    intro hmem
    obtain ⟨e, he, hfrom⟩ := hcreated n hmem hfresh
    exact ⟨e, List.mem_append_left _ he, hfrom⟩
  cases step_lists hm h hl with
  | quiet _ _ hc _ _ =>
      rw [hc] at hn
      exact hold hn
  | event _ _ hsame _ _ =>
      rw [hsame f] at hn
      exact hold hn
  | @emit ctx ev sym hctx he hnew _ _ =>
      obtain ⟨node, hnode, hcores⟩ := hnew
      rw [hcores f] at hn
      split at hn
      · next hf =>
          rcases List.mem_cons.mp hn with rfl | hn
          · have hem : emission m (.event ev) = some (ctx.entryNode, sym) := by
              simp only [emission, hctx, Option.bind_some, he, Option.map_some]
            refine ⟨(ctx.entryNode, sym), ?_, hnode.origin, ?_, hf.symm⟩
            · rw [hem]
              exact List.mem_append_right _ List.mem_cons_self
            · unfold occurrence occurrenceOf
              rw [hnode.type, hnode.name, hnode.byteOffset]
          · exact hold hn
      · exact hold hn
  | leave hcores _ _ =>
      rw [hcores f] at hn
      rcases List.mem_append.mp hn with hn | hn
      · exact absurd hfresh (not_isEmitted_of_mem_carriedInto (List.mem_reverse.mp hn))
      · exact hold hn

/-- In a run from any reachable state in which the assembler has no error in `f`, the file lists
    no old symbol exactly when each pass end behind a chess error in `f` comes behind a
    definition at or after every old one. -/
theorem no_ghosts_iff {E : Env} {m m' : Machine} {docs : Docs} {ls : List Label} {f : Str}
    (hm : Reachable (step E) Machine.init m) (hasm : ∀ l ∈ ls, NoAsmError f l)
    (h : run (step E) m (.start docs :: ls) = some m') :
    NoGhosts m'.analyzer.current f (emissions E m (.start docs :: ls)) ↔
      ∀ old ∈ listed m.analyzer.current f,
        Cleared old.byteOffset (collect (step E) (signs f) m (.start docs :: ls)) := by
  have hok := reachable_ok hm
  obtain ⟨m₁, hstart, hrun⟩ := run_cons_some h
  have hmeets : Meets (step E) (fun _ l => NoAsmError f l) m₁ ls :=
    (meets_iff_forall_mem (Option.isSome_iff_exists.mpr ⟨m', hrun⟩)).mpr hasm
  have hghost := collect_inv (P := GhostInv E m.analyzer.current f)
    (fun _ _ _ _ hinv hl hs => step_ghostInv hinv hl hs) (start_ghostInv hok hstart f) hmeets hrun
  have hempty : CreatedInv E f m₁ [] := by
    refine ⟨step_ok hok hstart, fun n hn => ?_⟩
    rw [((start_lists hstart).2 f).1] at hn
    cases hn
  have hcreated := collect_inv (P := CreatedInv E f) (C := fun _ l => NoAsmError f l)
    (fun _ _ _ _ hinv hl hs => step_createdInv hinv (fun docs he => (by subst he; exact hl)) hs)
    hempty hmeets hrun
  rw [List.nil_append] at hghost hcreated
  unfold emissions
  rw [collect_cons hstart, collect_cons hstart, noGhosts_iff_cores]
  show (∀ n ∈ coresOf m'.analyzer.current f, ∃ e ∈ [] ++ _, CreatedFrom f e n) ↔
    ∀ old ∈ listed m.analyzer.current f, Cleared old.byteOffset ([] ++ _)
  rw [List.nil_append, List.nil_append, ← hghost.fresh]
  constructor
  · intro hall n hn
    obtain ⟨e, -, hfrom⟩ := hall n hn
    exact ⟨e.1, hfrom.origin⟩
  · intro hall n hn
    exact hcreated.created n hn (hall n hn)

/-! ## A label and an error of buxn-chess -/

/-- `a` without its label. -/
def unlabelledDocs : Docs := Table.empty.put (ascii "a") (ascii "  POP")

def chessErrorEvent : Event :=
  .chessReport none .error ⟨ascii "Stack underflow", ⟨⟨1, ascii "a"⟩, ⟨⟨1, 1, 0⟩, ⟨1, 2, 1⟩⟩⟩, none⟩

/-- A pass over `a` that delivers `symbols` and in which buxn-chess has an error. -/
def chessErrorPass (docs : Docs) (symbols : List AsmSym) : List Label :=
  .enter :: .event (.fopen docs ⟨1, ascii "a"⟩ none) ::
    symbols.map (fun sym => .event (.putSymbol 256 sym [])) ++
    [.asmDone true, .event chessErrorEvent, .chessDone, .leave, .finish]

/-- The bytes that `a` lists after a label at byte 2, and what a pass behind that records and
    leaves. -/
def chessErrorOutcome (docs : Docs) (symbols : List AsmSym) :
    Option (List Nat × List Sign × List Origin) :=
  (run (step asciiEnv) Machine.init (labelRun 2)).bind fun m =>
    (run (step asciiEnv) m (.start docs :: chessErrorPass docs symbols)).map fun m' =>
      ((listed m.analyzer.current (ascii "a")).map SymNode.byteOffset,
        collect (step asciiEnv) (signs (ascii "a")) m (.start docs :: chessErrorPass docs symbols),
        (listed m'.analyzer.current (ascii "a")).map SymNode.origin)

/-- The label is emitted again before the pass ends. -/
theorem no_ghosts_same_label :
    ∃ m m', run (step asciiEnv) Machine.init (labelRun 2) = some m ∧
      run (step asciiEnv) m (.start labelDocs :: chessErrorPass labelDocs [labelAt 2]) = some m' ∧
      NoGhosts m'.analyzer.current (ascii "a")
        (emissions asciiEnv m (.start labelDocs :: chessErrorPass labelDocs [labelAt 2])) := by
  have hout : chessErrorOutcome labelDocs [labelAt 2] =
      some ([2], [.symbol 2, .error, .passEnd], [.emitted 0]) := by decide
  obtain ⟨m, hm, hout⟩ := Option.bind_eq_some_iff.mp hout
  obtain ⟨m', hm', hout⟩ := Option.map_eq_some_iff.mp hout
  simp only [Prod.mk.injEq] at hout
  refine ⟨m, m', hm, hm', (no_ghosts_iff ⟨_, hm⟩ (by decide) hm').mpr fun old hold => ?_⟩
  have hbyte : old.byteOffset ∈ [2] := hout.1 ▸ List.mem_map_of_mem hold
  rw [hout.2.1, List.mem_singleton.mp hbyte]
  refine (cleared_concat 2 [.symbol 2, .error] .passEnd).mpr
    ⟨(cleared_append 2 [] (by decide)).mpr (cleared_nil 2), fun _ _ => ?_⟩
  exact Or.inr ⟨2, List.mem_cons_self, Nat.le_refl 2⟩

/-- The label is deleted, and buxn-chess has an error in what is left. -/
theorem no_ghosts_fails :
    ∃ m m', run (step asciiEnv) Machine.init (labelRun 2) = some m ∧
      run (step asciiEnv) m (.start unlabelledDocs :: chessErrorPass unlabelledDocs []) =
        some m' ∧
      m'.phase = .idle ∧ (∀ l ∈ chessErrorPass unlabelledDocs [], NoAsmError (ascii "a") l) ∧
      ¬ NoGhosts m'.analyzer.current (ascii "a")
        (emissions asciiEnv m (.start unlabelledDocs :: chessErrorPass unlabelledDocs [])) := by
  have hout : ((run (step asciiEnv) Machine.init (labelRun 2)).bind fun m =>
      (run (step asciiEnv) m (.start unlabelledDocs :: chessErrorPass unlabelledDocs [])).map
        fun m' => (decide (m'.phase = .idle),
          (listed m'.analyzer.current (ascii "a")).map SymNode.origin)) =
      some (true, [.carried 0]) := by decide
  obtain ⟨m, hm, hout⟩ := Option.bind_eq_some_iff.mp hout
  obtain ⟨m', hm', hout⟩ := Option.map_eq_some_iff.mp hout
  simp only [Prod.mk.injEq, decide_eq_true_eq] at hout
  refine ⟨m, m', hm, hm', hout.1, by decide, fun hno => ?_⟩
  have hcarried : Origin.carried 0 ∈
      (listed m'.analyzer.current (ascii "a")).map SymNode.origin := by
    rw [hout.2]
    exact List.mem_cons_self
  obtain ⟨n, hn, ho⟩ := List.mem_map.mp hcarried
  obtain ⟨e, -, hfrom⟩ := hno n hn
  rw [hfrom.origin] at ho
  cases ho

end BuxnLs.Analysis
