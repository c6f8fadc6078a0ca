/-
  The semantics of zero-page labels. `Marks` reads the events of one pass alone: the scope of the
  enum group that is open, and the last `buxn:device` or `buxn:memory` of each file. Along a pass
  the enum scope of the code follows the group and the mode of a file record follows its marks
  (`applyEvent_follows`), but the record starts with the mode that an earlier pass of the run left
  in it. So a label gets the semantics of the marks exactly when that mode is not asked for, or is
  the initial one: `zero_page_semantics_iff`.
-/
import BuxnLs.Analysis.Annotations

namespace BuxnLs.Analysis

open BuxnLs.Lib BuxnLs.Model

/-! ## What the events of a pass say -/

/-- `prev` is the last symbol delivered, `group` the scope of the open enum group, `modes` the
    last mode annotation of each file. -/
structure Marks where
  prev : Option AsmSym
  group : Option Str
  modes : Table Str Semantics

namespace Marks

def start : Marks := ⟨none, none, .empty⟩

/-- The symbol is the last one again. -/
def repeats (k : Marks) (sym : AsmSym) : Bool :=
  match k.prev with
  | none => false
  | some prev =>
    sym.type = prev.type ∧ sym.id = prev.id ∧
      sym.region.filename.addr = prev.region.filename.addr ∧
      sym.region.range.start.byte = prev.region.range.start.byte ∧
      sym.region.range.stop.byte = prev.region.range.stop.byte

/-- An enum annotation opens a group with the scope of its symbol, a mode annotation counts for
    what follows in its file. -/
def annotate (k : Marks) (call : AnnoCall) : Marks :=
  match call.annotation with
  | some .buxnDevice =>
    { k with modes := k.modes.put call.region.filename.chars .asDevicePort }
  | some .buxnMemory =>
    { k with modes := k.modes.put call.region.filename.chars .asVariable }
  | some .buxnEnum => { k with group := some (labelScope call.sym.name) }
  | some .doc | none => k

/-- A zero-page label with a name of its own. -/
def isZeroPage (addr : UInt16) (sym : AsmSym) : Bool :=
  sym.type = .label ∧ sym.nameIsGenerated = false ∧ addr ≤ 0x00ff

/-- A zero-page label of another scope ends the group. -/
def deliver (k : Marks) (addr : UInt16) (sym : AsmSym) : Marks :=
  { k with
      prev := some sym
      group :=
        if isZeroPage addr sym = true ∧ k.group ≠ some (labelScope sym.name) then none
        else k.group }

def event (k : Marks) : Event → Marks
  | .putSymbol addr sym annos =>
    if k.repeats sym then k else annos.foldl annotate (k.deliver addr sym)
  | _ => k

/-- The marks after some events of a pass. -/
def after (events : List Event) : Marks := events.foldl event start

/-- The semantics of a label: enum when it carries the annotation or belongs to the open group,
    otherwise the mode of its file, a variable when there is none. -/
def semantics (k : Marks) (sym : AsmSym) (annos : List AnnoCall) : Semantics :=
  if (∃ call ∈ annos, call.annotation = some .buxnEnum ∧ call.sym = sym) ∨
      k.group = some (labelScope sym.name) then .asEnum
  else (k.modes.find? sym.region.filename.chars).getD .asVariable

end Marks

/-- Enum annotations come with the label or macro they belong to, which has a name of its own in a
    scope. -/
def EnumsOwn : Event → Prop
  | .putSymbol _ sym annos =>
    ∀ call ∈ annos, call.annotation = some .buxnEnum →
      call.sym = sym ∧ (sym.type = .macroDef ∨ sym.type = .label) ∧
        sym.nameIsGenerated = false ∧ labelScope sym.name ≠ []
  | _ => True

/-! ## The modes of files -/

/-- `zero_page_semantics` of a captured file. -/
def modeOf (a : Analyzer) (f : Str) : Option Semantics :=
  (a.files.find? f).map File.zeroPageSemantics

def SameModes (a b : Analyzer) : Prop := ∀ f, modeOf b f = modeOf a f

theorem SameModes.refl (a : Analyzer) : SameModes a a := fun _ => rfl

theorem SameModes.trans {a b c : Analyzer} (h : SameModes a b) (h' : SameModes b c) :
    SameModes a c := fun f => (h' f).trans (h f)

theorem modeOf_put {a : Analyzer} (filename f : Str) (file : File) :
    modeOf { a with files := a.files.put filename file } f =
      if filename = f then some file.zeroPageSemantics else modeOf a f := by
  unfold modeOf
  dsimp only
  rw [Table.find?_put]
  split <;> rfl

theorem sameModes_put {a : Analyzer} {filename : Str} {file file' : File}
    (hf : a.files.find? filename = some file)
    (hz : file'.zeroPageSemantics = file.zeroPageSemantics) :
    SameModes a { a with files := a.files.put filename file' } := by
  intro f
  rw [modeOf_put]
  split
  · next he => rw [← he, modeOf, hf, Option.map_some, hz]
  · rfl

theorem LinesOnly.sameModes {a b : Analyzer} (h : LinesOnly a b) : SameModes a b :=
  fun f => h.field f fun _ => rfl

theorem markError_sameModes (a : Analyzer) (filename : Str) :
    SameModes a (markError a filename) := by
  unfold markError
  split
  · exact .refl a
  · next file hf => exact sameModes_put hf rfl

theorem noteSymbolByte_sameModes {a : Analyzer} {filename : Str} {file : File}
    (hf : a.files.find? filename = some file) (byte : Nat) :
    SameModes a (noteSymbolByte a filename file byte) := by
  unfold noteSymbolByte
  split
  · exact sameModes_put hf rfl
  · exact .refl a

theorem reports_sameModes (E : Env) : ReportKeeps E SameModes where
  refl := .refl
  trans := .trans
  mark := markError_sameModes
  convert := fun a region => (convertRegion_linesOnly E a region).sameModes
  push := fun a _ => .refl a

/-- The first open of a file gives it the initial mode. -/
theorem captureFile_modeOf (a : Analyzer) (filename content f : Str) :
    modeOf (captureFile a filename content) f =
      if filename = f ∧ modeOf a f = none then some .asVariable else modeOf a f := by
  unfold captureFile
  split
  · next hopen =>
      rw [if_neg]
      rintro ⟨rfl, hnone⟩
      rw [modeOf, Option.map_eq_none_iff] at hnone
      rw [hnone] at hopen
      cases hopen
  · next hnew =>
      unfold putFile
      rw [modeOf_put]
      by_cases he : filename = f
      · subst he
        rw [if_pos rfl, if_pos ⟨rfl, by simpa [modeOf] using hnew⟩]
      · rw [if_neg he, if_neg fun h => he h.1]

theorem asmFopen_files (E : Env) (p : Pass) (docs : Docs) (filename : CStr)
    (disk : Option Str) :
    (asmFopen E p docs filename disk).1.analyzer.files = p.analyzer.files ∨
      ∃ content, (asmFopen E p docs filename disk).1.analyzer.files =
        (captureFile p.analyzer filename.chars content).files := by
  rcases asmFopen_moves E p docs filename disk with ⟨-, ha⟩ | ⟨content, c, -, ha⟩
  · exact Or.inl (by rw [ha])
  · exact Or.inr ⟨content, by rw [ha]⟩

/-! ## The node of a definition -/

/-- What `putDefinition` does for a name that is not generated. -/
structure NamedNode (p q : Pass) (addr : UInt16) (sym : AsmSym) (file : File) (node : SymNode) :
    Prop where
  opened : p.analyzer.files.find? sym.region.filename.chars = some file
  syms : q.analyzer.current.syms = p.analyzer.current.syms ++ [node]
  name : node.name = sym.name
  semantics : node.semantics =
    if sym.type = .label then (labelSemantics p.ctx file addr sym.name).1 else .asSubroutine
  scope : q.ctx.enumScope =
    if sym.type = .label then (labelSemantics p.ctx file addr sym.name).2 else p.ctx.enumScope
  current : q.ctx.currentSymNode = some p.analyzer.current.syms.length
  modes : SameModes p.analyzer q.analyzer

theorem putDefinition_named {E : Env} {p q : Pass} {addr : UInt16} {sym : AsmSym}
    (hgen : sym.nameIsGenerated = false) (h : putDefinition E p addr sym = some q) :
    ∃ file node, NamedNode p q addr sym file node := by
  unfold putDefinition at h
  split at h
  · cases h
  · next file hf =>
      dsimp only at h
      rw [hgen, if_neg Bool.false_ne_true] at h
      obtain ⟨⟨a, node⟩, hm, hq⟩ := Option.map_eq_some_iff.mp h
      obtain ⟨hl, -, -, hname, -⟩ := makeSymNode_spec hm
      have hcur : a.current = p.analyzer.current :=
        hl.current.trans (noteSymbolByte_current _ _ _ _)
      have hmodes : SameModes p.analyzer a :=
        (noteSymbolByte_sameModes hf _).trans hl.sameModes
      dsimp only at hq
      split at hq
      · next htype =>
          subst hq
          refine ⟨file, _, hf, congrArg (· ++ [_]) (congrArg AnalyzerCtx.syms hcur), hname, ?_, ?_,
            congrArg (fun c : AnalyzerCtx => some c.syms.length) hcur, hmodes⟩
          · rw [if_pos htype, ← hname]
          · rw [if_pos htype, ← hname]
      · next htype =>
          subst hq
          refine ⟨file, _, hf, congrArg (· ++ [_]) (congrArg AnalyzerCtx.syms hcur), hname, ?_, ?_,
            congrArg (fun c : AnalyzerCtx => some c.syms.length) hcur, hmodes⟩
          · rw [if_neg htype]
          · rw [if_neg htype]

/-- A generated name leaves the nodes and the context. -/
theorem putDefinition_generated {E : Env} {p q : Pass} {addr : UInt16} {sym : AsmSym}
    (hgen : sym.nameIsGenerated = true) (h : putDefinition E p addr sym = some q) :
    q.ctx = p.ctx ∧ SameModes p.analyzer q.analyzer := by
  obtain ⟨file, hf, -, rfl⟩ | ⟨hnamed, -⟩ := putDefinition_cases h
  · exact ⟨rfl, noteSymbolByte_sameModes hf _⟩
  · rw [hgen] at hnamed
    cases hnamed

/-! ## The code follows the marks -/

/-- The state of a pass that started with the modes of `a₀`. -/
structure Follows (a₀ : Analyzer) (k : Marks) (p : Pass) : Prop where
  prev : p.ctx.previousSym = k.prev
  group : p.ctx.enumScope = k.group.getD []
  nonempty : k.group ≠ some []
  unopened : ∀ f, modeOf p.analyzer f = none → k.modes.find? f = none ∧ modeOf a₀ f = none
  modes : ∀ f s, modeOf p.analyzer f = some s →
    s = (k.modes.find? f).getD ((modeOf a₀ f).getD .asVariable)

/-- A step that leaves the marks and what they are about. -/
theorem Follows.of_same {a₀ : Analyzer} {k : Marks} {p q : Pass} (h : Follows a₀ k p)
    (hprev : q.ctx.previousSym = p.ctx.previousSym) (hscope : q.ctx.enumScope = p.ctx.enumScope)
    (hmodes : SameModes p.analyzer q.analyzer) : Follows a₀ k q where
  prev := hprev.trans h.prev
  group := hscope.trans h.group
  nonempty := h.nonempty
  unopened := fun f hf => h.unopened f ((hmodes f).symm.trans hf)
  modes := fun f s hf => h.modes f s ((hmodes f).symm.trans hf)

/-- The enum scope matches a scope exactly when the open group has it. -/
theorem Follows.inGroup_iff {a₀ : Analyzer} {k : Marks} {p : Pass} (h : Follows a₀ k p)
    (scope : Str) :
    (p.ctx.enumScope.length > 0 ∧ scope = p.ctx.enumScope) ↔ k.group = some scope := by
  rw [h.group]
  cases hg : k.group with
  | none => simp
  | some g =>
      have hne : g ≠ [] := fun he => h.nonempty (hg.trans (congrArg some he))
      have hpos := List.length_pos_iff.mpr hne
      rw [Option.getD_some, Option.some.injEq]
      exact ⟨fun hs => hs.2.symm, fun hs => ⟨hpos, hs.symm⟩⟩

/-- The scope after a zero-page label. -/
theorem Follows.labelSemantics {a₀ : Analyzer} {k : Marks} {p : Pass} (h : Follows a₀ k p)
    (file : File) {addr : UInt16} (haddr : addr ≤ 0x00ff) (name : Str) :
    labelSemantics p.ctx file addr name =
      if k.group = some (labelScope name) then (.asEnum, p.ctx.enumScope)
      else (file.zeroPageSemantics, []) := by
  rw [Model.labelSemantics, if_pos haddr]
  by_cases hg : k.group = some (labelScope name)
  · rw [if_pos hg, if_pos ((h.inGroup_iff _).mpr hg)]
  · rw [if_neg hg, if_neg fun hs => hg ((h.inGroup_iff _).mp hs)]

theorem Marks.deliver_group_of_other (k : Marks) {addr : UInt16} {sym : AsmSym}
    (h : Marks.isZeroPage addr sym = false) : (k.deliver addr sym).group = k.group := by
  unfold Marks.deliver
  dsimp only
  rw [if_neg fun hc => Bool.false_ne_true (h.symm.trans hc.1)]

/-- A step that leaves the modes and has the scope of the delivered symbol. -/
theorem Follows.delivered {a₀ : Analyzer} {k : Marks} {p q : Pass} {addr : UInt16} {sym : AsmSym}
    (h : Follows a₀ k p) (hmodes : SameModes p.analyzer q.analyzer)
    (hscope : q.ctx.enumScope = (k.deliver addr sym).group.getD []) :
    Follows a₀ (k.deliver addr sym) { q with ctx := { q.ctx with previousSym := some sym } } where
  prev := rfl
  group := hscope
  nonempty := by
    unfold Marks.deliver
    dsimp only
    split
    · exact (Option.some_ne_none []).symm
    · exact h.nonempty
  unopened := fun f hf => h.unopened f ((hmodes f).symm.trans hf)
  modes := fun f s hf => h.modes f s ((hmodes f).symm.trans hf)

/-- The scope after a definition with a name of its own is that of the delivered symbol. -/
theorem Follows.named_scope {a₀ : Analyzer} {k : Marks} {p q : Pass} (h : Follows a₀ k p)
    {addr : UInt16} {sym : AsmSym} {file : File} {node : SymNode}
    (hgen : sym.nameIsGenerated = false) (hnode : NamedNode p q addr sym file node) :
    q.ctx.enumScope = (k.deliver addr sym).group.getD [] := by
  rw [hnode.scope]
  by_cases hlabel : sym.type = .label
  · rw [if_pos hlabel]
    by_cases haddr : addr ≤ 0x00ff
    · have hz : Marks.isZeroPage addr sym = true := by
        simp [Marks.isZeroPage, hgen, hlabel, haddr]
      rw [h.labelSemantics file haddr, Marks.deliver]
      dsimp only
      by_cases hg : k.group = some (labelScope sym.name)
      · rw [if_pos hg, if_neg fun hc => hc.2 hg, ← h.group]
      · rw [if_neg hg, if_pos ⟨hz, hg⟩]
        rfl
    · rw [Model.labelSemantics, if_neg haddr,
        k.deliver_group_of_other (by simp [Marks.isZeroPage, haddr]), ← h.group]
  · rw [if_neg hlabel, k.deliver_group_of_other (by simp [Marks.isZeroPage, hlabel]), ← h.group]

theorem putDefinition_follows {E : Env} {a₀ : Analyzer} {k : Marks} {p q : Pass} {addr : UInt16}
    {sym : AsmSym} (h : Follows a₀ k p) (hq : putDefinition E p addr sym = some q) :
    Follows a₀ (k.deliver addr sym) { q with ctx := { q.ctx with previousSym := some sym } } := by
  cases hgen : sym.nameIsGenerated with
  | true =>
      obtain ⟨hctx, hmodes⟩ := putDefinition_generated hgen hq
      refine h.delivered hmodes ?_
      rw [hctx, k.deliver_group_of_other (by simp [Marks.isZeroPage, hgen]), h.group]
  | false =>
      obtain ⟨file, node, hnode⟩ := putDefinition_named hgen hq
      exact h.delivered hnode.modes (h.named_scope hgen hnode)

/-- A delivered symbol, before its annotations. -/
theorem putSymNode_follows {E : Env} {a₀ : Analyzer} {k : Marks} {p q : Pass} {addr : UInt16}
    {sym : AsmSym} (h : Follows a₀ k p) (hq : putSymNode E p addr sym = some q) :
    Follows a₀ (k.deliver addr sym) { q with ctx := { q.ctx with previousSym := some sym } } := by
  obtain ⟨-, hdef⟩ | ⟨⟨-, htype⟩, refs, rfl⟩ := putSymNode_type_cases hq
  · exact putDefinition_follows h hdef
  · refine h.delivered (.refl _) ?_
    rw [k.deliver_group_of_other (by simp [Marks.isZeroPage, htype])]
    exact h.group

/-! ## Annotations of a symbol -/

/-- The current node has the name of the symbol. -/
def NodeNamed (p : Pass) (sym : AsmSym) : Prop :=
  ∃ id node, p.ctx.currentSymNode = some id ∧ p.analyzer.current.syms[id]? = some node ∧
    node.name = sym.name

theorem handleAnnotation_ctx {p q : Pass} {call : AnnoCall}
    (h : handleAnnotation p call = some q) :
    q.ctx.currentSymNode = p.ctx.currentSymNode ∧ q.ctx.previousSym = p.ctx.previousSym := by
  obtain ⟨hctx, -⟩ | ⟨id, f, enumScope, -, -, hctx, -⟩ := handleAnnotation_cases h
  · rw [hctx]
    exact ⟨rfl, rfl⟩
  · rw [hctx]
    exact ⟨rfl, rfl⟩

/-- A call that succeeds comes from an opened file. -/
theorem opened_of_some {p q : Pass} {call : AnnoCall} (h : handleAnnotation p call = some q) :
    FileOpened p.analyzer call := by
  by_contra hopen
  rw [handleAnnotation_unopened hopen] at h
  cases h

/-- The current node after a call. -/
theorem handleAnnotation_node {p q : Pass} {call : AnnoCall} {id : SymId} {node : SymNode}
    (h : handleAnnotation p call = some q) (hid : p.ctx.currentSymNode = some id)
    (hnode : p.analyzer.current.syms[id]? = some node) :
    ∃ node', q.analyzer.current.syms[id]? = some node' ∧ node'.name = node.name ∧
      (call.annotation.isSome = true → node'.semantics =
        if call.annotation = some .buxnEnum then .asEnum else node.semantics) := by
  have hopen := opened_of_some h
  have hwrite : ∀ f, callWrite p.analyzer call = some f →
      q.analyzer.current.syms[id]? = some (f node) := by
    intro f hf
    obtain ⟨hnone, -⟩ | ⟨id', q', hid', hq', hsyms⟩ := handleAnnotation_write hopen hf
    · rw [hnone] at h
      cases h
    · cases h.symm.trans hq'
      cases hid.symm.trans hid'
      rw [hsyms, List.getElem?_modify_eq, hnode]
      rfl
  have hquiet : callWrite p.analyzer call = none →
      q.analyzer.current.syms[id]? = some node := by
    intro hf
    obtain ⟨q', hq', hcur⟩ := handleAnnotation_quiet hopen hf
    cases h.symm.trans hq'
    rw [hcur, hnode]
  cases hanno : call.annotation with
  | none =>
      exact ⟨_, hwrite _ (by rw [callWrite, hanno]), rfl, fun hs => absurd hs Bool.false_ne_true⟩
  | some annotation =>
      cases annotation with
      | doc => exact ⟨_, hwrite _ (by rw [callWrite, hanno]), rfl, fun _ => rfl⟩
      | buxnEnum => exact ⟨_, hwrite _ (by rw [callWrite, hanno]), rfl, fun _ => rfl⟩
      | buxnDevice => exact ⟨_, hquiet (by rw [callWrite, hanno]), rfl, fun _ => rfl⟩
      | buxnMemory => exact ⟨_, hquiet (by rw [callWrite, hanno]), rfl, fun _ => rfl⟩

theorem NodeNamed.annotated {p q : Pass} {sym : AsmSym} {call : AnnoCall}
    (h : NodeNamed p sym) (hq : handleAnnotation p call = some q) : NodeNamed q sym := by
  obtain ⟨id, node, hid, hnode, hname⟩ := h
  obtain ⟨node', hnode', hname', -⟩ := handleAnnotation_node hq hid hnode
  exact ⟨id, node', (handleAnnotation_ctx hq).1.trans hid, hnode', hname'.trans hname⟩

/-- The marks of a mode annotation. -/
theorem Follows.setMode {a₀ : Analyzer} {k : Marks} {p : Pass} (h : Follows a₀ k p)
    (filename : Str) (file : File) (mode : Semantics) :
    Follows a₀ { k with modes := k.modes.put filename mode }
      { p with analyzer := { p.analyzer with
          files := p.analyzer.files.put filename { file with zeroPageSemantics := mode } } } where
  prev := h.prev
  group := h.group
  nonempty := h.nonempty
  unopened := by
    intro f hf
    rw [modeOf_put] at hf
    dsimp only
    rw [Table.find?_put]
    split at hf
    · cases hf
    · next hne =>
        rw [if_neg hne]
        exact h.unopened f hf
  modes := by
    intro f s hf
    rw [modeOf_put] at hf
    dsimp only
    rw [Table.find?_put]
    split at hf
    · next he =>
        cases hf
        rw [if_pos he]
        rfl
    · next hne =>
        rw [if_neg hne]
        exact h.modes f s hf

/-- One call. An enum annotation finds the node of its own symbol. -/
theorem handleAnnotation_follows {a₀ : Analyzer} {k : Marks} {p q : Pass} {call : AnnoCall}
    (h : Follows a₀ k p) (henum : call.annotation = some .buxnEnum →
      NodeNamed p call.sym ∧ labelScope call.sym.name ≠ [])
    (hq : handleAnnotation p call = some q) : Follows a₀ (k.annotate call) q := by
  have hopen := opened_of_some hq
  cases hanno : call.annotation with
  | none =>
      have hmark : k.annotate call = k := by simp only [Marks.annotate, hanno]
      rw [hmark]
      simp only [hanno, handleAnnotation] at hq
      obtain ⟨id, -, rfl⟩ := Option.map_eq_some_iff.mp hq
      exact h.of_same rfl rfl (.refl _)
  | some annotation =>
      obtain ⟨file, hfile⟩ := hopen.resolve_left (by rw [hanno]; exact Option.some_ne_none _)
      cases annotation with
      | doc =>
          have hmark : k.annotate call = k := by simp only [Marks.annotate, hanno]
          rw [hmark]
          simp only [hanno, handleAnnotation, hfile] at hq
          obtain ⟨id, -, rfl⟩ := Option.map_eq_some_iff.mp hq
          exact h.of_same rfl rfl (.refl _)
      | buxnDevice =>
          simp only [hanno, handleAnnotation, hfile] at hq
          cases hq
          simp only [Marks.annotate, hanno]
          exact h.setMode _ file _
      | buxnMemory =>
          simp only [hanno, handleAnnotation, hfile] at hq
          cases hq
          simp only [Marks.annotate, hanno]
          exact h.setMode _ file _
      | buxnEnum =>
          obtain ⟨⟨id, node, hid, hnode, hname⟩, hscope⟩ := henum hanno
          simp only [hanno, handleAnnotation, hfile, hid] at hq
          cases hq
          simp only [Marks.annotate, hanno]
          refine ⟨h.prev, ?_, fun he => hscope (Option.some.inj he), h.unopened, h.modes⟩
          show (Option.elim ((p.analyzer.current.syms.modify id _)[id]?) [] _) = _
          rw [List.getElem?_modify_eq, hnode]
          exact congrArg labelScope hname

/-- The calls of one symbol. -/
theorem annotations_follow {a₀ : Analyzer} (sym : AsmSym) {calls : List AnnoCall} {k : Marks}
    {p q : Pass} (h : Follows a₀ k p)
    (hown : ∀ call ∈ calls, call.annotation = some .buxnEnum →
      call.sym = sym ∧ labelScope sym.name ≠ [])
    (hnode : (∃ call ∈ calls, call.annotation = some .buxnEnum) → NodeNamed p sym)
    (hq : calls.foldlM handleAnnotation p = some q) :
    Follows a₀ (calls.foldl Marks.annotate k) q := by
  induction calls generalizing k p with
  | nil =>
      cases hq
      exact h
  | cons call calls ih =>
      rw [List.foldlM_cons] at hq
      obtain ⟨r, hr, hq⟩ := Option.bind_eq_some_iff.mp hq
      refine ih (handleAnnotation_follows h (fun he => ?_) hr)
        (fun c hc => hown c (List.mem_cons_of_mem call hc)) (fun ⟨c, hc, he⟩ => ?_) hq
      · obtain ⟨hsym, hscope⟩ := hown call List.mem_cons_self he
        rw [hsym]
        exact ⟨hnode ⟨call, List.mem_cons_self, he⟩, hscope⟩
      · exact (hnode ⟨c, List.mem_cons_of_mem call hc, he⟩).annotated hr

/-- Without stack comments the current node ends as an enum when one call makes it one. -/
theorem annotations_semantics {calls : List AnnoCall} {p q : Pass} {id : SymId} {node : SymNode}
    (hsome : ∀ call ∈ calls, call.annotation.isSome = true)
    (hid : p.ctx.currentSymNode = some id) (hnode : p.analyzer.current.syms[id]? = some node)
    (hq : calls.foldlM handleAnnotation p = some q) :
    ∃ node', q.analyzer.current.syms[id]? = some node' ∧ node'.semantics =
      if ∃ call ∈ calls, call.annotation = some .buxnEnum then .asEnum else node.semantics := by
  induction calls generalizing p node with
  | nil =>
      cases hq
      exact ⟨node, hnode, by simp⟩
  | cons call calls ih =>
      rw [List.foldlM_cons] at hq
      obtain ⟨r, hr, hq⟩ := Option.bind_eq_some_iff.mp hq
      obtain ⟨node₁, hnode₁, -, hsem₁⟩ := handleAnnotation_node hr hid hnode
      obtain ⟨node₂, hnode₂, hsem₂⟩ := ih (fun c hc => hsome c (List.mem_cons_of_mem call hc))
        ((handleAnnotation_ctx hr).1.trans hid) hnode₁ hq
      refine ⟨node₂, hnode₂, ?_⟩
      rw [hsem₂, hsem₁ (hsome call List.mem_cons_self)]
      simp only [List.exists_mem_cons_iff]
      by_cases hcall : call.annotation = some .buxnEnum
      · rw [if_pos hcall, if_pos (Or.inl hcall), ite_self]
      · rw [if_neg hcall]
        simp only [hcall, false_or]

/-! ## A whole pass -/

theorem Follows.repeats {a₀ : Analyzer} {k : Marks} {p : Pass} (h : Follows a₀ k p)
    (sym : AsmSym) : k.repeats sym = p.ctx.repeats sym := by
  have hprev := h.prev
  unfold Marks.repeats AsmCtx.repeats
  cases hk : k.prev with
  | none => rw [hprev.trans hk]
  | some sym => rw [hprev.trans hk]

/-- A definition with a name of its own leaves its node as the current one. -/
theorem nodeNamed_of_put {E : Env} {p q : Pass} {addr : UInt16} {sym : AsmSym}
    (htype : sym.type = .macroDef ∨ sym.type = .label) (hgen : sym.nameIsGenerated = false)
    (h : putSymNode E p addr sym = some q) : ∃ file node, NamedNode p q addr sym file node := by
  obtain ⟨-, hdef⟩ | ⟨hother, -⟩ := putSymNode_type_cases h
  · exact putDefinition_named hgen hdef
  · exact absurd htype (not_or.mpr hother)

theorem NamedNode.current_node {p q : Pass} {addr : UInt16} {sym : AsmSym} {file : File}
    {node : SymNode} (h : NamedNode p q addr sym file node) :
    q.analyzer.current.syms[p.analyzer.current.syms.length]? = some node := by
  rw [h.syms, List.getElem?_append_right (Nat.le_refl _), Nat.sub_self]
  rfl

theorem asmFopen_follows {E : Env} {a₀ : Analyzer} {k : Marks} {p : Pass}
    (h : Follows a₀ k p) (docs : Docs) (filename : CStr) (disk : Option Str) :
    Follows a₀ k (asmFopen E p docs filename disk).1 := by
  have hctx := asmFopen_ctx E p docs filename disk
  rcases asmFopen_files E p docs filename disk with hfiles | ⟨content, hfiles⟩
  · refine h.of_same (by rw [hctx]) (by rw [hctx]) fun f => ?_
    unfold modeOf
    rw [hfiles]
  · have hmode : ∀ f, modeOf (asmFopen E p docs filename disk).1.analyzer f =
        if filename.chars = f ∧ modeOf p.analyzer f = none then some .asVariable
        else modeOf p.analyzer f := by
      intro f
      rw [← captureFile_modeOf p.analyzer filename.chars content f]
      unfold modeOf
      rw [hfiles]
    refine ⟨by rw [hctx]; exact h.prev, by rw [hctx]; exact h.group, h.nonempty, fun f hf => ?_,
      fun f s hf => ?_⟩
    · rw [hmode] at hf
      split at hf
      · cases hf
      · exact h.unopened f hf
    · rw [hmode] at hf
      split at hf
      · next hnew =>
          cases hf
          obtain ⟨hk, ha⟩ := h.unopened f hnew.2
          rw [hk, ha]
          rfl
      · exact h.modes f s hf

/-- One callback. -/
theorem applyEvent_follows {E : Env} {a₀ : Analyzer} {k : Marks} {p q : Pass} {ev : Event}
    (h : Follows a₀ k p) (hown : EnumsOwn ev) (hq : applyEvent E p ev = some q) :
    Follows a₀ (k.event ev) q := by
  cases ev with
  | fopen docs filename disk =>
      cases hq
      exact asmFopen_follows h docs filename disk
  | report type r =>
      cases hq
      exact h.of_same rfl rfl ((reports_sameModes E).asmReport p.analyzer type r)
  | putRom addr value =>
      cases hq
      exact h.of_same rfl rfl (.refl _)
  | putSymbol addr sym annos =>
      show Follows a₀
        (if k.repeats sym = true then k else annos.foldl Marks.annotate (k.deliver addr sym)) q
      rw [h.repeats]
      obtain ⟨hrep, rfl⟩ | ⟨hrep, r, hr, hannos⟩ := asmPutSymbol_cases hq
      · rw [if_pos hrep]
        exact h
      · rw [if_neg hrep]
        refine annotations_follow sym (putSymNode_follows h hr)
          (fun call hc he => ?_) (fun ⟨call, hc, he⟩ => ?_) hannos
        · obtain ⟨hsym, -, -, hscope⟩ := hown call hc he
          exact ⟨hsym, hscope⟩
        · obtain ⟨-, htype, hgen, -⟩ := hown call hc he
          obtain ⟨file, node, hnode⟩ := nodeNamed_of_put htype hgen hr
          exact ⟨_, node, hnode.current, hnode.current_node, hnode.name⟩
  | chessReport traceId type r =>
      cases hq
      exact h.of_same rfl rfl ((reports_sameModes E).chessReport p.analyzer traceId type r)
  | chessDeo traceId s value port =>
      cases hq
      exact h.of_same rfl rfl ((reports_sameModes E).chessDeo p.analyzer traceId s value port)

theorem startPass_follows (a : Analyzer) (entry : SrcId) :
    Follows a .start (startPass a entry) where
  prev := rfl
  group := rfl
  nonempty := (Option.some_ne_none []).symm
  unopened := fun _ hf => ⟨rfl, hf⟩
  modes := fun _ _ hf => by
    rw [show modeOf a _ = some _ from hf]
    rfl

/-- Any part of a pass. -/
theorem pass_follows {E : Env} {a₀ : Analyzer} {events : List Event} {k : Marks} {p q : Pass}
    (h : Follows a₀ k p) (hown : ∀ ev ∈ events, EnumsOwn ev)
    (hq : events.foldlM (applyEvent E) p = some q) : Follows a₀ (events.foldl Marks.event k) q := by
  induction events generalizing k p with
  | nil =>
      cases hq
      exact h
  | cons ev events ih =>
      rw [List.foldlM_cons] at hq
      obtain ⟨r, hr, hq⟩ := Option.bind_eq_some_iff.mp hq
      exact ih (applyEvent_follows h (hown ev List.mem_cons_self) hr)
        (fun ev' hev' => hown ev' (List.mem_cons_of_mem ev hev')) hq

/-- A zero-page label gets the semantics of the marks of its pass exactly when it is in an enum
    group, or a mode annotation precedes it in its file, or the file had the initial mode when
    the pass began. Stack comments are left out: they override the semantics afterwards. -/
theorem zero_page_semantics_iff (E : Env) (a : Analyzer) (entry : SrcId) {events : List Event}
    {p : Pass} (hrun : events.foldlM (applyEvent E) (startPass a entry) = some p)
    {addr : UInt16} {sym : AsmSym} {annos : List AnnoCall}
    (hown : ∀ ev ∈ events ++ [.putSymbol addr sym annos], EnumsOwn ev)
    (hlabel : Marks.isZeroPage addr sym = true) (hnew : p.ctx.repeats sym = false) {q : Pass}
    (hq : asmPutSymbol E p addr sym (annos.filter fun call => call.annotation.isSome) = some q) :
    ∃ node, q.analyzer.current.syms[p.analyzer.current.syms.length]? = some node ∧
      (node.semantics = (Marks.after events).semantics sym annos ↔
        ((∃ call ∈ annos, call.annotation = some .buxnEnum ∧ call.sym = sym) ∨
          (Marks.after events).group = some (labelScope sym.name)) ∨
        ((Marks.after events).modes.find? sym.region.filename.chars).isSome = true ∨
        ∀ s, modeOf a sym.region.filename.chars = some s → s = .asVariable) := by
  have hk : Follows a (Marks.after events) p :=
    pass_follows (startPass_follows a entry)
      (fun ev hev => hown ev (List.mem_append_left _ hev)) hrun
  have hcarries : (∃ call ∈ annos, call.annotation = some .buxnEnum ∧ call.sym = sym) ↔
      ∃ call ∈ annos.filter (fun call => call.annotation.isSome),
        call.annotation = some .buxnEnum := by
    constructor
    · rintro ⟨call, hc, he, -⟩
      exact ⟨call, List.mem_filter.mpr ⟨hc, by rw [he]; rfl⟩, he⟩
    · rintro ⟨call, hc, he⟩
      have hc := (List.mem_filter.mp hc).1
      exact ⟨call, hc, he,
        (hown _ (List.mem_append_right _ (List.mem_singleton_self _)) call hc he).1⟩
  simp only [Marks.isZeroPage, decide_eq_true_eq] at hlabel
  obtain ⟨htype, hgen, haddr⟩ := hlabel
  obtain ⟨hrep, -⟩ | ⟨-, r, hr, hfold⟩ := asmPutSymbol_cases hq
  · rw [hnew] at hrep
    cases hrep
  obtain ⟨file, node, hnode⟩ := nodeNamed_of_put (Or.inr htype) hgen hr
  obtain ⟨node', hnode', hsem⟩ := annotations_semantics
    (p := { r with ctx := { r.ctx with previousSym := some sym } })
    (fun call hc => (List.mem_filter.mp hc).2) hnode.current hnode.current_node hfold
  refine ⟨node', hnode', ?_⟩
  have hmode := hk.modes sym.region.filename.chars file.zeroPageSemantics
    (by rw [modeOf, hnode.opened, Option.map_some])
  rw [hnode.semantics, if_pos htype, hk.labelSemantics file haddr] at hsem
  rw [Marks.semantics]
  by_cases hc : ∃ call ∈ annos, call.annotation = some .buxnEnum ∧ call.sym = sym
  · rw [if_pos (hcarries.mp hc)] at hsem
    rw [if_pos (Or.inl hc), hsem]
    exact iff_of_true rfl (Or.inl (Or.inl hc))
  · rw [if_neg (mt hcarries.mpr hc)] at hsem
    by_cases hg : (Marks.after events).group = some (labelScope sym.name)
    · rw [if_pos hg] at hsem
      rw [if_pos (Or.inr hg), hsem]
      exact iff_of_true rfl (Or.inl (Or.inr hg))
    · rw [if_neg hg, hmode] at hsem
      rw [if_neg (not_or.mpr ⟨hc, hg⟩), hsem, or_iff_right (not_or.mpr ⟨hc, hg⟩)]
      cases (Marks.after events).modes.find? sym.region.filename.chars with
      | some s => simp
      | none =>
          cases modeOf a sym.region.filename.chars with
          | none => simp
          | some s => simp

/-! ## A file shared by two entries -/

def deviceDocs : Docs :=
  (Table.empty.put (ascii "a") (ascii "f")).put (ascii "b") (ascii "f")

/-- The zero-page label at the start of the shared file. -/
def deviceLabel : AsmSym where
  type := .label
  name := ascii "x"
  nameIsGenerated := false
  id := 1
  region := ⟨⟨1, ascii "f"⟩, ⟨⟨1, 1, 0⟩, ⟨1, 3, 2⟩⟩⟩

/-- The comment behind it, `(buxn:device )`. -/
def deviceComment : AsmSym where
  type := .other
  name := ascii "(buxn:device"
  nameIsGenerated := false
  id := 0
  region := ⟨⟨1, ascii "f"⟩, ⟨⟨1, 4, 3⟩, ⟨1, 18, 17⟩⟩⟩

def deviceCall : AnnoCall := ⟨0, deviceComment, some .buxnDevice, deviceComment.region⟩

/-- Open an entry and the file it includes. -/
def includeEvents (entry : String) : List Event :=
  [.fopen deviceDocs ⟨2, ascii entry⟩ none,
    .fopen deviceDocs ⟨1, ascii "f"⟩ (some (ascii "@x (buxn:device )"))]

/-- The analysis up to the end of the pass for `a`. -/
def firstPassRun : List Label :=
  [.start deviceDocs, .enter] ++ (includeEvents "a").map .event ++
    [.event (.putSymbol 0 deviceLabel []), .event (.putSymbol 0 deviceComment [deviceCall]),
      .asmDone true, .chessDone, .leave]

/-- The label of the pass for `entry` after the labels of a run. -/
def labelAfter (ls : List Label) (id : SrcId) (entry : String) :
    Option (Machine × Pass × Pass) :=
  (run (step asciiEnv) Machine.init ls).bind fun m =>
    ((includeEvents entry).foldlM (applyEvent asciiEnv) (startPass m.analyzer id)).bind fun p =>
      (asmPutSymbol asciiEnv p 0 deviceLabel []).map fun q => (m, p, q)

theorem labelAfter_some {ls : List Label} {id : SrcId} {entry : String} {m : Machine} {p q : Pass}
    (h : labelAfter ls id entry = some (m, p, q)) :
    run (step asciiEnv) Machine.init ls = some m ∧
      (includeEvents entry).foldlM (applyEvent asciiEnv) (startPass m.analyzer id) = some p ∧
      asmPutSymbol asciiEnv p 0 deviceLabel [] = some q := by
  obtain ⟨m', hm, h⟩ := Option.bind_eq_some_iff.mp h
  obtain ⟨p', hp, h⟩ := Option.bind_eq_some_iff.mp h
  obtain ⟨q', hq, h⟩ := Option.map_eq_some_iff.mp h
  simp only [Prod.mk.injEq] at h
  obtain ⟨rfl, rfl, rfl⟩ := h
  exact ⟨hm, hp, hq⟩

/-- In the first pass the label is a variable. -/
theorem zero_page_semantics_first :
    ∃ m p q node, run (step asciiEnv) Machine.init [.start deviceDocs] = some m ∧
      (includeEvents "a").foldlM (applyEvent asciiEnv) (startPass m.analyzer 0) = some p ∧
      asmPutSymbol asciiEnv p 0 deviceLabel [] = some q ∧
      q.analyzer.current.syms[p.analyzer.current.syms.length]? = some node ∧
      node.semantics = .asVariable := by
  have hout : (labelAfter [.start deviceDocs] 0 "a").map
      (fun r => (r.2.1.ctx.repeats deviceLabel, modeOf r.1.analyzer (ascii "f"))) =
        some (false, none) := by
    decide
  obtain ⟨⟨m, p, q⟩, hr, hpair⟩ := Option.map_eq_some_iff.mp hout
  obtain ⟨hm, hp, hq⟩ := labelAfter_some hr
  obtain ⟨hnew, hmode⟩ := Prod.mk.inj hpair
  have hown : ∀ ev ∈ includeEvents "a" ++ [.putSymbol 0 deviceLabel []], EnumsOwn ev := by
    simp [includeEvents, EnumsOwn]
  obtain ⟨node, hnode, hiff⟩ :=
    zero_page_semantics_iff asciiEnv m.analyzer 0 hp hown (by decide) hnew hq
  refine ⟨m, p, q, node, hm, hp, hq, hnode, (hiff.mpr (Or.inr (Or.inr fun s hs => ?_))).trans
    (by decide)⟩
  rw [show modeOf m.analyzer deviceLabel.region.filename.chars = none from hmode] at hs
  cases hs

/-- In the second pass it is a device port: the annotation behind it was read in the first. -/
theorem zero_page_semantics_leaks :
    ∃ m p q node, run (step asciiEnv) Machine.init firstPassRun = some m ∧
      (includeEvents "b").foldlM (applyEvent asciiEnv) (startPass m.analyzer 1) = some p ∧
      asmPutSymbol asciiEnv p 0 deviceLabel [] = some q ∧
      q.analyzer.current.syms[p.analyzer.current.syms.length]? = some node ∧
      node.semantics = .asDevicePort ∧
      (Marks.after (includeEvents "b")).semantics deviceLabel [] = .asVariable := by
  have hout : (labelAfter firstPassRun 1 "b").bind (fun r =>
      (r.2.2.analyzer.current.syms[r.2.1.analyzer.current.syms.length]?).map
        SymNode.semantics) = some .asDevicePort := by
    decide
  obtain ⟨⟨m, p, q⟩, hr, hsem⟩ := Option.bind_eq_some_iff.mp hout
  obtain ⟨hm, hp, hq⟩ := labelAfter_some hr
  obtain ⟨node, hnode, hsem⟩ := Option.map_eq_some_iff.mp hsem
  exact ⟨m, p, q, node, hm, hp, hq, hnode, hsem, by decide⟩

end BuxnLs.Analysis
