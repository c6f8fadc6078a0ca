/-
  The line cache of an analysis. A file that has been split keeps the index of its first line
  and their number; `CacheOK` says that the lines found there are those of its content. Every
  callback keeps it, so `splitFile` always returns the lines of the captured content
  (`CacheOK.slice`), and a position converts to the same place whenever it is asked for.
-/
import BuxnLs.Analysis.Invariant

namespace BuxnLs.Analysis

open BuxnLs.Lib BuxnLs.Model

/-- The lines of a file that has been split stand in the array. -/
def Cached (lines : List Line) (file : File) : Prop :=
  ∀ first, file.firstLineIndex = some first → ∃ before after,
    lines = before ++ splitFile file.content ++ after ∧ before.length = first ∧
      file.numLines = (splitFile file.content).length

def CacheOK (a : Analyzer) : Prop :=
  ∀ f file, a.files.find? f = some file → Cached a.lines file

theorem Cached.congr {lines : List Line} {file file' : File} (h : Cached lines file)
    (ht : textOf file' = textOf file) : Cached lines file' := by
  simp only [textOf, Prod.mk.injEq] at ht
  obtain ⟨hc, hi, hn⟩ := ht
  intro first hf
  rw [hc, hn]
  exact h first (hi ▸ hf)

theorem Cached.grow {lines : List Line} {file : File} (h : Cached lines file)
    (more : List Line) : Cached (lines ++ more) file := by
  intro first hf
  obtain ⟨before, after, hl, hb, hn⟩ := h first hf
  exact ⟨before, after ++ more, by rw [hl, List.append_assoc], hb, hn⟩

/-- The cache depends on the lines and on what conversion reads of the files. -/
theorem CacheOK.congr {a b : Analyzer} (h : CacheOK a) (hl : b.lines = a.lines)
    (ht : ∀ f, (b.files.find? f).map textOf = (a.files.find? f).map textOf) : CacheOK b := by
  intro f file hf
  obtain ⟨file', hf', he⟩ := Option.map_eq_some_iff.mp ((ht f).symm.trans (congrArg _ hf))
  rw [hl]
  exact (h f file' hf').congr he.symm

theorem CacheOK.of_sameText {a b : Analyzer} (h : CacheOK a) (hs : SameText a b) : CacheOK b :=
  h.congr hs.lines hs.text

/-! ## Splitting -/

theorem splitFile_cached {a : Analyzer} {filename : Str} {file : File} {first : Nat}
    (hf : a.files.find? filename = some file) (hi : file.firstLineIndex = some first) :
    a.splitFile filename = (a, some ((a.lines.drop first).take file.numLines)) := by
  simp only [Analyzer.splitFile, hf, hi]

theorem splitFile_fresh {a : Analyzer} {filename : Str} {file : File}
    (hf : a.files.find? filename = some file) (hi : file.firstLineIndex = none) :
    a.splitFile filename =
      ({ a with
          files := a.files.put filename
            { file with
                firstLineIndex := some a.lines.length
                numLines := (splitFile file.content).length }
          lines := a.lines ++ splitFile file.content },
        some (splitFile file.content)) := by
  simp only [Analyzer.splitFile, hf, hi]

/-- `splitFile` returns the lines of the captured content. -/
theorem CacheOK.slice {a : Analyzer} (h : CacheOK a) (filename : Str) :
    (a.splitFile filename).2 =
      (a.files.find? filename).map fun file => Model.splitFile file.content := by
  cases hf : a.files.find? filename with
  | none => simp only [Analyzer.splitFile, hf, Option.map_none]
  | some file =>
      cases hi : file.firstLineIndex with
      | none => rw [splitFile_fresh hf hi, Option.map_some]
      | some first =>
          obtain ⟨before, after, hl, hb, hn⟩ := h filename file hf first hi
          rw [splitFile_cached hf hi, Option.map_some, hl, hn, ← hb, List.append_assoc,
            List.drop_left, List.take_left]

theorem CacheOK.splitFile {a : Analyzer} (h : CacheOK a) (filename : Str) :
    CacheOK (a.splitFile filename).1 := by
  cases hf : a.files.find? filename with
  | none =>
      simp only [Analyzer.splitFile, hf]
      exact h
  | some file =>
      cases hi : file.firstLineIndex with
      | some first =>
          rw [splitFile_cached hf hi]
          exact h
      | none =>
          rw [splitFile_fresh hf hi]
          intro f file' hf'
          rcases Table.find?_put_eq_some.mp hf' with ⟨-, rfl⟩ | ⟨-, hf'⟩
          · intro first hfirst
            cases hfirst
            exact ⟨a.lines, [], by rw [List.append_nil], rfl, rfl⟩
          · exact (h f file' hf').grow _

theorem CacheOK.position {E : Env} {a : Analyzer} (h : CacheOK a) (filename : Str)
    (pos : AsmPos) :
    (convertPosition E a filename pos).2 = positionIn E.utf8proc
      ((a.files.find? filename).map fun file => Model.splitFile file.content) pos := by
  unfold convertPosition
  dsimp only
  rw [h.slice]

theorem CacheOK.convertPosition {a : Analyzer} (h : CacheOK a) (E : Env) (filename : Str)
    (pos : AsmPos) : CacheOK (convertPosition E a filename pos).1 :=
  h.splitFile filename

theorem CacheOK.convertRange {a : Analyzer} (h : CacheOK a) (E : Env) (filename : Str)
    (range : AsmRange) : CacheOK (convertRange E a filename range).1 :=
  (h.convertPosition E filename range.start).convertPosition E filename range.stop

theorem CacheOK.convertRegion {a : Analyzer} (h : CacheOK a) (E : Env) (region : AsmRegion) :
    CacheOK (convertRegion E a region).1 :=
  h.convertRange E _ region.range

/-- A range converts end by end. -/
theorem CacheOK.range {E : Env} {a : Analyzer} (h : CacheOK a) (filename : Str)
    (range : AsmRange) :
    (Model.convertRange E a filename range).2 =
      ⟨(Model.convertPosition E a filename range.start).2,
        (Model.convertPosition E a filename range.stop).2⟩ := by
  have hafter := (h.convertPosition E filename range.start).position (E := E) filename range.stop
  have hfiles : ((Model.convertPosition E a filename range.start).1.files.find? filename).map
        (fun file => Model.splitFile file.content) =
      (a.files.find? filename).map fun file => Model.splitFile file.content :=
    (convertPosition_linesOnly E a filename range.start).field filename fun _ => rfl
  rw [hfiles, ← h.position filename range.stop] at hafter
  unfold Model.convertRange
  exact congrArg (Range.mk _) hafter

/-! ## What the callbacks do to the texts -/

/-- A relation that is kept by a change which conversion does not look at and by splitting. -/
structure TextKeeps (R : Analyzer → Analyzer → Prop) : Prop where
  refl : ∀ a, R a a
  trans : ∀ {a b c}, R a b → R b c → R a c
  text : ∀ {a b}, b.lines = a.lines →
    (∀ f, (b.files.find? f).map textOf = (a.files.find? f).map textOf) → R a b
  split : ∀ a filename, R a (a.splitFile filename).1

theorem carrySymbol_lines (source : SrcId) (last : Nat) (a : Analyzer) (id : SymId) :
    (carrySymbol source last a id).lines = a.lines := by
  unfold carrySymbol
  split
  · rfl
  · split <;> rfl

theorem foldl_lines {α : Type} {f : Analyzer → α → Analyzer}
    (hf : ∀ a x, (f a x).lines = a.lines) (xs : List α) (a : Analyzer) :
    (xs.foldl f a).lines = a.lines := by
  induction xs generalizing a with
  | nil => rfl
  | cons x xs ih => exact (ih (f a x)).trans (hf a x)

theorem carryForward_lines (a : Analyzer) : (carryForward a).lines = a.lines := by
  refine foldl_lines (fun a e => ?_) _ a
  unfold carryFile
  split
  · split
    · exact foldl_lines (carrySymbol_lines _ _) _ a
    · rfl
  · rfl

/-- The analyzer in which a step starts to convert: an open has captured its file. -/
def textBase (a : Analyzer) : Label → Analyzer
  | .event (.fopen docs filename disk) =>
    match findContent a docs disk filename.chars with
    | none => a
    | some content => captureFile a filename.chars content
  | _ => a

namespace TextKeeps

variable {E : Env} {R : Analyzer → Analyzer → Prop}

theorem of_eq (h : TextKeeps R) {a b : Analyzer} (hl : b.lines = a.lines)
    (hf : b.files = a.files) : R a b :=
  h.text hl fun f => by rw [hf]

theorem of_sameText (h : TextKeeps R) {a b : Analyzer} (hs : SameText a b) : R a b :=
  h.text hs.lines hs.text

theorem convertRange (h : TextKeeps R) (E : Env) (a : Analyzer) (filename : Str)
    (range : AsmRange) : R a (convertRange E a filename range).1 :=
  h.trans (h.split a filename) (h.split _ filename)

theorem reports (h : TextKeeps R) (E : Env) : ReportKeeps E R where
  refl := h.refl
  trans := h.trans
  mark := fun a filename => h.of_sameText (markError_sameText a filename)
  convert := fun a region => h.convertRange E a _ region.range
  push := fun _ _ => h.of_eq rfl rfl

theorem annotation (h : TextKeeps R) {p p' : Pass} {call : AnnoCall}
    (hs : handleAnnotation p call = some p') : R p.analyzer p'.analyzer := by
  obtain ⟨-, file, sem, hf, ha⟩ | ⟨id, f, enumScope, -, -, -, ha⟩ := handleAnnotation_cases hs
  · rw [ha]
    exact h.of_sameText (.put hf rfl)
  · rw [ha]
    exact h.of_eq rfl rfl

theorem symNode (h : TextKeeps R) {a a' : Analyzer} {sym : AsmSym} {node : SymNode}
    (hm : makeSymNode E a sym = some (a', node)) : R a a' := by
  unfold makeSymNode at hm
  split at hm
  · cases hm
  · cases hm
    exact h.convertRange E a _ sym.region.range

theorem definition (h : TextKeeps R) {p p' : Pass} {addr : UInt16} {sym : AsmSym}
    (hp : putDefinition E p addr sym = some p') : R p.analyzer p'.analyzer := by
  unfold putDefinition at hp
  split at hp
  · cases hp
  · next file hf =>
      have hnote := h.of_sameText (noteSymbolByte_sameText hf sym.region.range.start.byte)
      dsimp only at hp
      split at hp
      · cases hp
        exact hnote
      · obtain ⟨⟨a, node⟩, hm, hp⟩ := Option.map_eq_some_iff.mp hp
        have ha := h.trans hnote (h.symNode hm)
        dsimp only at hp
        split at hp
        · subst hp
          exact h.trans ha (h.of_eq rfl rfl)
        · subst hp
          exact h.trans ha (h.of_eq rfl rfl)

theorem symbol (h : TextKeeps R) {p p' : Pass} {addr : UInt16} {sym : AsmSym}
    {annos : List AnnoCall} (hp : asmPutSymbol E p addr sym annos = some p') :
    R p.analyzer p'.analyzer := by
  obtain ⟨-, rfl⟩ | ⟨-, q, hq, hannos⟩ := asmPutSymbol_cases hp
  · exact h.refl _
  · have hput : R p.analyzer q.analyzer := by
      obtain ⟨-, hdef⟩ | ⟨-, refs, rfl⟩ := putSymNode_type_cases hq
      · exact h.definition hdef
      · exact h.of_eq rfl rfl
    exact foldlM_inv (P := fun q : Pass => R p.analyzer q.analyzer)
      (s := { q with ctx := { q.ctx with previousSym := some sym } })
      (fun _ _ _ _ hq hs => h.trans hq (h.annotation hs)) hput hannos

theorem opened (h : TextKeeps R) (E : Env) (p : Pass) (docs : Docs) (filename : CStr)
    (disk : Option Str) :
    R (textBase p.analyzer (.event (.fopen docs filename disk)))
      (asmFopen E p docs filename disk).1.analyzer := by
  unfold textBase
  dsimp only
  rcases asmFopen_moves E p docs filename disk with ⟨hnone, ha⟩ | ⟨content, c, hcontent, ha⟩
  · rw [hnone, ha]
    exact h.refl _
  · rw [hcontent, ha]
    exact h.of_eq rfl rfl

theorem event (h : TextKeeps R) {p p' : Pass} {ev : Event} (hp : applyEvent E p ev = some p') :
    R (textBase p.analyzer (.event ev)) p'.analyzer := by
  cases ev with
  | fopen docs filename disk =>
      cases hp
      exact h.opened E p docs filename disk
  | report type r =>
      cases hp
      exact (h.reports E).asmReport p.analyzer type r
  | putRom addr value =>
      cases hp
      exact h.refl _
  | putSymbol addr sym annos => exact h.symbol hp
  | chessReport traceId type r =>
      cases hp
      exact (h.reports E).chessReport p.analyzer traceId type r
  | chessDeo traceId s value port =>
      cases hp
      exact (h.reports E).chessDeo p.analyzer traceId s value port

theorem leave (h : TextKeeps R) {a a' : Analyzer} (hl : leavePass E a = some a') : R a a' := by
  have hcarry : R a (carryForward a) :=
    h.of_eq (carryForward_lines a) (carryForward_carries a).files
  refine foldlM_inv (P := R a) (fun b sym b' _ hb hs => ?_) hcarry hl
  obtain ⟨-, rfl⟩ | ⟨d, c, node, -, hm, rfl⟩ := connectReference_cases hs
  · exact hb
  · exact h.trans (h.trans hb (h.symNode hm)) (h.of_eq rfl rfl)

/-- A step of a run that has started. -/
theorem step (h : TextKeeps R) {m m' : Machine} {l : Label} (hl : ∀ docs, l ≠ .start docs)
    (hs : step E m l = some m') : R (textBase m.analyzer l) m'.analyzer := by
  cases step_cases hs with
  | start _ _ => exact absurd rfl (hl _)
  | skip _ _ _ => exact h.refl _
  | enter _ _ _ => exact h.of_eq rfl rfl
  | event _ hev => exact h.event hev
  | asmDone _ _ _ => exact h.refl _
  | asmEnded _ _ => exact h.refl _
  | chessDone _ => exact h.refl _
  | leave _ ha => exact h.leave ha
  | finish _ _ => exact h.of_eq rfl rfl

end TextKeeps

/-- A run starts without files. -/
theorem start_texts {E : Env} {m m' : Machine} {docs : Docs}
    (h : step E m (.start docs) = some m') :
    m'.analyzer.lines = [] ∧ m'.analyzer.files = .empty := by
  cases step_cases h with
  | start _ ha =>
      obtain ⟨-, hlines, hfiles, -⟩ := analyzeBegin_begun ha
      exact ⟨hlines, hfiles⟩

/-! ## The whole analysis keeps the cache -/

theorem keeps_cacheOK : TextKeeps fun a b => CacheOK a → CacheOK b where
  refl := fun _ h => h
  trans := fun h h' ha => h' (h ha)
  text := fun hl ht h => h.congr hl ht
  split := fun _ filename h => h.splitFile filename

theorem captureFile_cacheOK {a : Analyzer} (h : CacheOK a) (filename content : Str) :
    CacheOK (captureFile a filename content) := by
  unfold captureFile
  split
  · exact h
  · intro f file hf
    rcases Table.find?_put_eq_some.mp hf with ⟨-, rfl⟩ | ⟨-, hf⟩
    · intro first hfirst
      cases hfirst
    · exact h f file hf

theorem textBase_cacheOK {a : Analyzer} (h : CacheOK a) (l : Label) : CacheOK (textBase a l) := by
  unfold textBase
  split
  · split
    · exact h
    · exact captureFile_cacheOK h _ _
  · exact h

theorem step_cacheOK {E : Env} {m m' : Machine} {l : Label} (h : CacheOK m.analyzer)
    (hs : step E m l = some m') : CacheOK m'.analyzer := by
  by_cases hl : ∀ docs, l ≠ .start docs
  · exact keeps_cacheOK.step hl hs (textBase_cacheOK h l)
  · simp only [not_forall, not_not] at hl
    obtain ⟨docs, rfl⟩ := hl
    intro f file hf
    rw [(start_texts hs).2, Table.find?_empty] at hf
    cases hf

/-- The cache is right in every reachable state. -/
theorem reachable_cacheOK {E : Env} {m : Machine} (h : Reachable (step E) Machine.init m) :
    CacheOK m.analyzer :=
  h.inv (P := fun m => CacheOK m.analyzer)
    (fun f file hf => by cases hf) fun _ _ _ hm hs => step_cacheOK hm hs

end BuxnLs.Analysis
