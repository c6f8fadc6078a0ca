/-
  What the definition lists hold. `coresOf c f` are the nodes that file `f` lists, newest first,
  up to the annotations of the symbols emitted in this run. Of all changes only a new definition
  touches it, so each callback and loop either leaves every list or puts nodes in front of one:
  the symbol it emits, or the old symbols it carries (`carriedInto`).
-/
import BuxnLs.Analysis.Invariant

namespace BuxnLs.Analysis

open BuxnLs.Lib BuxnLs.Model Relation

/-- A node without what annotations may set; a copy of an old symbol is never annotated. -/
def core (n : SymNode) : SymNode :=
  match n.origin with
  | .emitted _ => { n with documentation := [], signature := [], semantics := .asVariable }
  | _ => n

@[simp] theorem core_origin (n : SymNode) : (core n).origin = n.origin := by
  unfold core
  split <;> rfl

theorem core_key (n : SymNode) :
    (core n).type = n.type ∧ (core n).name = n.name ∧ (core n).byteOffset = n.byteOffset := by
  unfold core
  split <;> exact ⟨rfl, rfl, rfl⟩

@[simp] theorem core_range (n : SymNode) : (core n).range = n.range := by
  unfold core
  split <;> rfl

@[simp] theorem core_source (n : SymNode) : (core n).source = n.source := by
  unfold core
  split <;> rfl

theorem core_of_carried {n : SymNode} {old : SymId} (h : n.origin = .carried old) : core n = n := by
  unfold core
  rw [h]

theorem core_annotates {n : SymNode} {entry : SrcId} {f : SymNode → SymNode} (hf : Annotates f)
    (ho : n.origin = .emitted entry) : core (f n) = core n := by
  obtain ⟨doc, sig, sem, he⟩ := hf n
  rw [he]
  unfold core
  rw [ho]

/-- The definitions that a file lists, newest first. -/
def definitionsOf (c : AnalyzerCtx) (filename : Str) : List SymId :=
  (c.srcOf filename).elim [] SrcNode.definitions

def listed (c : AnalyzerCtx) (filename : Str) : List SymNode :=
  c.nodes (definitionsOf c filename)

def coresOf (c : AnalyzerCtx) (filename : Str) : List SymNode := (listed c filename).map core

theorem srcOf_of_find? {c : AnalyzerCtx} {filename : Str} {id : SrcId}
    (h : c.sources.find? filename = some id) : c.srcOf filename = c.srcs[id]? := by
  unfold AnalyzerCtx.srcOf
  rw [h, Option.bind_some]

theorem srcOf_of_find?_none {c : AnalyzerCtx} {filename : Str}
    (h : c.sources.find? filename = none) : c.srcOf filename = none := by
  unfold AnalyzerCtx.srcOf
  rw [h, Option.bind_none]

theorem definitionsOf_of_srcs {c : AnalyzerCtx} {filename : Str} {id : SrcId} {src : SrcNode}
    (h : c.sources.find? filename = some id) (hs : c.srcs[id]? = some src) :
    definitionsOf c filename = src.definitions := by
  unfold definitionsOf
  rw [srcOf_of_find? h, hs]
  rfl

theorem linked_definitionsOf {E : Env} {c : AnalyzerCtx} (hc : CtxWF E c) (filename : Str) :
    (definitionsOf c filename).Nodup ∧
      ∀ s ∈ definitionsOf c filename, ∃ node : SymNode, c.syms[s]? = some node ∧
        c.sources.find? filename = some node.source := by
  unfold definitionsOf
  cases hf : c.sources.find? filename with
  | none =>
      rw [srcOf_of_find?_none hf]
      exact ⟨List.nodup_nil, fun s hs => absurd hs List.not_mem_nil⟩
  | some id =>
      obtain ⟨src, hs, -⟩ := hc.sources filename id hf
      rw [srcOf_of_find? hf, hs]
      obtain ⟨hnd, hlink⟩ := hc.definitions id src hs
      refine ⟨hnd, fun s hm => ?_⟩
      obtain ⟨node, hn, he⟩ := hlink s hm
      exact ⟨node, hn, by rw [he]⟩

theorem nodes_cons_of_some {c : AnalyzerCtx} {id : SymId} {ids : List SymId} {n : SymNode}
    (h : c.syms[id]? = some n) : c.nodes (id :: ids) = n :: c.nodes ids := by
  unfold AnalyzerCtx.nodes
  rw [List.filterMap_cons, h]

theorem mem_nodes_iff {c : AnalyzerCtx} {ids : List SymId} {n : SymNode} :
    n ∈ c.nodes ids ↔ ∃ id ∈ ids, c.syms[id]? = some n := List.mem_filterMap

/-- The nodes of a list do not change when each of its nodes keeps its core. -/
theorem cores_congr {c c' : AnalyzerCtx} {ids : List SymId}
    (h : ∀ id ∈ ids, ∀ n : SymNode, c.syms[id]? = some n →
      ∃ n' : SymNode, c'.syms[id]? = some n' ∧ core n' = core n)
    (hv : ∀ id ∈ ids, ∃ n : SymNode, c.syms[id]? = some n) :
    (c'.nodes ids).map core = (c.nodes ids).map core := by
  induction ids with
  | nil => rfl
  | cons id ids ih =>
      obtain ⟨n, hn⟩ := hv id List.mem_cons_self
      obtain ⟨n', hn', he⟩ := h id List.mem_cons_self n hn
      rw [nodes_cons_of_some hn, nodes_cons_of_some hn', List.map_cons, List.map_cons, he,
        ih (fun i hi => h i (List.mem_cons_of_mem _ hi))
          fun i hi => hv i (List.mem_cons_of_mem _ hi)]

theorem coresOf_congr {E : Env} {c c' : AnalyzerCtx} (hc : CtxWF E c) {filename : Str}
    (hd : definitionsOf c' filename = definitionsOf c filename)
    (h : ∀ (id : SymId) (n : SymNode), c.syms[id]? = some n →
      ∃ n' : SymNode, c'.syms[id]? = some n' ∧ core n' = core n) :
    coresOf c' filename = coresOf c filename := by
  unfold coresOf listed
  rw [hd]
  refine cores_congr (fun id _ n hn => h id n hn) fun id hid => ?_
  obtain ⟨n, hn, -⟩ := (linked_definitionsOf hc filename).2 id hid
  exact ⟨n, hn⟩

/-! ## Changes that leave the lists -/

/-- A list of the source node of a file; empty when it has none. -/
def linksOf (links : SrcNode → List SymId) (c : AnalyzerCtx) (filename : Str) : List SymId :=
  (c.srcOf filename).elim [] links

section Links

variable {links : SrcNode → List SymId}

theorem linksOf_of_srcs {c : AnalyzerCtx} {filename : Str} {id : SrcId} {src : SrcNode}
    (h : c.sources.find? filename = some id) (hs : c.srcs[id]? = some src) :
    linksOf links c filename = links src := by
  unfold linksOf
  rw [srcOf_of_find? h, hs]
  rfl

/-- Modifying source nodes in place without touching the list. -/
theorem linksOf_modify (c : AnalyzerCtx) (node : SrcId) (f : SrcNode → SrcNode)
    (hf : ∀ src : SrcNode, links (f src) = links src) (c' : AnalyzerCtx)
    (hs : c'.sources = c.sources) (hsrcs : c'.srcs = c.srcs.modify node f) (filename : Str) :
    linksOf links c' filename = linksOf links c filename := by
  unfold linksOf AnalyzerCtx.srcOf
  rw [hs, hsrcs]
  cases c.sources.find? filename with
  | none => rfl
  | some id =>
      rw [Option.bind_some, Option.bind_some, List.getElem?_modify]
      cases c.srcs[id]? with
      | none => rfl
      | some src =>
          show links (if node = id then f src else src) = links src
          split
          · exact hf src
          · rfl

theorem linksOf_addSource {E : Env} {c : AnalyzerCtx} (hc : CtxWF E c) {new : Str}
    (hlinks : links (freshSrc E new) = []) (hnew : c.sources.find? new = none) (filename : Str) :
    linksOf links (addSource E c new) filename = linksOf links c filename := by
  by_cases h : new = filename
  · subst h
    have hfind : (addSource E c new).sources.find? new = some c.srcs.length :=
      Table.find?_put_self _ _ _
    rw [linksOf_of_srcs hfind ((getElem?_alloc_iff _ _ _ _).mpr (Or.inr ⟨rfl, rfl⟩)), hlinks]
    unfold linksOf
    rw [srcOf_of_find?_none hnew]
    rfl
  · have hfind : (addSource E c new).sources.find? filename = c.sources.find? filename :=
      Table.find?_put_ne _ _ h
    cases hf : c.sources.find? filename with
    | none =>
        unfold linksOf
        rw [srcOf_of_find?_none hf, srcOf_of_find?_none (hfind.trans hf)]
    | some id =>
        obtain ⟨src, hs, -⟩ := hc.sources filename id hf
        rw [linksOf_of_srcs hf hs, linksOf_of_srcs (hfind.trans hf) (getElem?_alloc_old hs)]

/-- A symbol that is linked goes in front of the list of its own file. -/
theorem linksOf_link {E : Env} {c : AnalyzerCtx} (hc : CtxWF E c) {file : Str} {source : SrcId}
    {new : SymId} (hf : c.sources.find? file = some source) (f : SrcNode → SrcNode)
    (hlinks : ∀ src : SrcNode, links (f src) = new :: links src) (c' : AnalyzerCtx)
    (hs : c'.sources = c.sources) (hsrcs : c'.srcs = c.srcs.modify source f) (filename : Str) :
    linksOf links c' filename =
      if filename = file then new :: linksOf links c filename else linksOf links c filename := by
  have hsame : c'.sources.find? filename = c.sources.find? filename := by rw [hs]
  by_cases h : filename = file
  · subst h
    obtain ⟨src, hsrc, -⟩ := hc.sources filename source hf
    have hsrc' : c'.srcs[source]? = some (f src) :=
      hsrcs ▸ (getElem?_modify_iff _ _ _ _ _).mpr ⟨src, hsrc, by rw [if_pos rfl]⟩
    rw [if_pos rfl, linksOf_of_srcs (hsame.trans hf) hsrc', linksOf_of_srcs hf hsrc, hlinks]
  · rw [if_neg h]
    cases hg : c.sources.find? filename with
    | none =>
        unfold linksOf
        rw [srcOf_of_find?_none hg, srcOf_of_find?_none (hsame.trans hg)]
    | some id =>
        obtain ⟨src, hsrc, hname⟩ := hc.sources filename id hg
        have hne : source ≠ id := by
          intro he
          obtain ⟨src', hsrc', hname'⟩ := hc.sources file source hf
          rw [he, hsrc] at hsrc'
          cases hsrc'
          exact h (hname.symm.trans hname')
        have hsrc' : c'.srcs[id]? = some src :=
          hsrcs ▸ (getElem?_modify_iff _ _ _ _ _).mpr ⟨src, hsrc, by rw [if_neg hne]⟩
        rw [linksOf_of_srcs hg hsrc, linksOf_of_srcs (hsame.trans hg) hsrc']

end Links

theorem addSource_definitionsOf {E : Env} {c : AnalyzerCtx} (hc : CtxWF E c) {new : Str}
    (hnew : c.sources.find? new = none) (filename : Str) :
    definitionsOf (addSource E c new) filename = definitionsOf c filename :=
  linksOf_addSource hc rfl hnew filename

theorem addSource_coresOf {E : Env} {c : AnalyzerCtx} (hc : CtxWF E c) {new : Str}
    (hnew : c.sources.find? new = none) (filename : Str) :
    coresOf (addSource E c new) filename = coresOf c filename :=
  coresOf_congr hc (addSource_definitionsOf hc hnew filename) fun _ n hn => ⟨n, hn, rfl⟩

theorem openSource_definitionsOf (c : AnalyzerCtx) (entry node : SrcId) (filename : Str) :
    definitionsOf (openSource c entry node) filename = definitionsOf c filename :=
  linksOf_modify c node (fun src => { src with analyzed := true }) (fun _ => rfl) _
    (by unfold openSource; split <;> rfl) (by unfold openSource; split <;> rfl) filename

theorem openSource_syms (c : AnalyzerCtx) (entry node : SrcId) :
    (openSource c entry node).syms = c.syms := by
  unfold openSource
  split <;> rfl

theorem openSource_coresOf {E : Env} {c : AnalyzerCtx} (hc : CtxWF E c) (entry node : SrcId)
    (filename : Str) : coresOf (openSource c entry node) filename = coresOf c filename :=
  coresOf_congr hc (openSource_definitionsOf c entry node filename) fun _ n hn =>
    ⟨n, openSource_syms c entry node ▸ hn, rfl⟩

theorem linkReference_definitionsOf (c : AnalyzerCtx) (node : SymNode) (d : SymId)
    (filename : Str) : definitionsOf (linkReference c node d) filename = definitionsOf c filename :=
  linksOf_modify c node.source
    (fun src => { src with references := c.syms.length :: src.references }) (fun _ => rfl)
    (linkReference c node d) rfl rfl filename

theorem linkReference_coresOf {E : Env} {c : AnalyzerCtx} (hc : CtxWF E c) (node : SymNode)
    (d : SymId) (filename : Str) :
    coresOf (linkReference c node d) filename = coresOf c filename :=
  coresOf_congr hc (linkReference_definitionsOf c node d filename)
    fun _ n hn => ⟨n, getElem?_alloc_old hn, rfl⟩

theorem annotate_coresOf {E : Env} {c : AnalyzerCtx} (hc : CtxWF E c) {id : SymId}
    {node : SymNode} {entry : SrcId} {f : SymNode → SymNode} (hn : c.syms[id]? = some node)
    (ho : node.origin = .emitted entry) (hf : Annotates f) (filename : Str) :
    coresOf (annotate c id f) filename = coresOf c filename := by
  refine coresOf_congr hc rfl fun i n hi => ?_
  refine ⟨_, (getElem?_modify_iff _ _ _ _ _).mpr ⟨n, hi, rfl⟩, ?_⟩
  split
  · rename_i he
    subst he
    obtain rfl : n = node := Option.some.inj (hi.symm.trans hn)
    exact core_annotates hf ho
  · rfl

/-! ## New definitions -/

/-- A definition goes in front of the list of its own file. -/
theorem linkDefinition_definitionsOf {E : Env} {c : AnalyzerCtx} (hc : CtxWF E c) {file : Str}
    {node : SymNode} (hf : c.sources.find? file = some node.source) (filename : Str) :
    definitionsOf (linkDefinition c node) filename =
      if filename = file then c.syms.length :: definitionsOf c filename
      else definitionsOf c filename :=
  linksOf_link hc hf (fun src => { src with definitions := c.syms.length :: src.definitions })
    (fun _ => rfl) (linkDefinition c node) rfl rfl filename

theorem linkDefinition_coresOf {E : Env} {c : AnalyzerCtx} (hc : CtxWF E c) {file : Str}
    {node : SymNode} (hf : c.sources.find? file = some node.source) (filename : Str) :
    coresOf (linkDefinition c node) filename =
      if filename = file then core node :: coresOf c filename else coresOf c filename := by
  have hold : ((linkDefinition c node).nodes (definitionsOf c filename)).map core =
      coresOf c filename := by
    refine cores_congr (fun _ _ n hn => ⟨n, getElem?_alloc_old hn, rfl⟩) fun id hid => ?_
    obtain ⟨n, hn, -⟩ := (linked_definitionsOf hc filename).2 id hid
    exact ⟨n, hn⟩
  have hnew : (linkDefinition c node).syms[c.syms.length]? = some node :=
    (getElem?_alloc_iff _ _ _ _).mpr (Or.inr ⟨rfl, rfl⟩)
  rw [coresOf, listed, linkDefinition_definitionsOf hc hf]
  split
  · rw [nodes_cons_of_some hnew, List.map_cons, hold]
  · exact hold

/-! ## Callbacks -/

/-- What `buxn_asm_fopen` does to the context: nothing when it finds no content. -/
theorem asmFopen_cases (E : Env) (p : Pass) (docs : Docs) (filename : CStr) (disk : Option Str) :
    (asmFopen E p docs filename disk).1 = p ∨
    ∃ content c node, findContent p.analyzer docs disk filename.chars = some content ∧
      ((c = p.analyzer.current ∧ c.sources.find? filename.chars = some node) ∨
        (p.analyzer.current.sources.find? filename.chars = none ∧
          c = addSource E p.analyzer.current filename.chars ∧
          node = p.analyzer.current.srcs.length)) ∧
      (asmFopen E p docs filename disk).1.analyzer.current = openSource c p.ctx.entryNode node ∧
      (asmFopen E p docs filename disk).1.analyzer.files =
        (captureFile p.analyzer filename.chars content).files := by
  unfold asmFopen
  cases hcontent : findContent p.analyzer docs disk filename.chars with
  | none => exact Or.inl rfl
  | some content =>
      right
      have hcap := captureFile_current p.analyzer filename.chars content
      have hlink : ∀ (a : Analyzer) (entry node : SrcId),
          (linkEntry a entry node).files = a.files := by
        intro a entry node
        rw [linkEntry_eq]
      dsimp only
      unfold sourceNode
      rw [hcap]
      cases hfind : p.analyzer.current.sources.find? filename.chars with
      | some node =>
          refine ⟨content, _, node, rfl, Or.inl ⟨rfl, hfind⟩, ?_, hlink _ _ _⟩
          dsimp only
          rw [linkEntry_current, hcap]
      | none =>
          refine ⟨content, _, _, rfl, Or.inr ⟨rfl, rfl, rfl⟩, ?_, hlink _ _ _⟩
          dsimp only
          rw [linkEntry_current]
          unfold allocNode
          rw [hcap]
          rfl

theorem asmFopen_coresOf {E : Env} {p : Pass} (hp : CtxWF E p.analyzer.current) (docs : Docs)
    (filename : CStr) (disk : Option Str) (f : Str) :
    coresOf (asmFopen E p docs filename disk).1.analyzer.current f =
      coresOf p.analyzer.current f := by
  rcases asmFopen_cases E p docs filename disk with he | ⟨content, c, node, -, hc, hcur, -⟩
  · rw [he]
  · rw [hcur]
    obtain ⟨rfl, -⟩ | ⟨hnone, rfl, -⟩ := hc
    · exact openSource_coresOf hp _ _ f
    · rw [openSource_coresOf (addSource_wf hp hnone), addSource_coresOf hp hnone]

/-- The reports leave the context. -/
theorem reports_current (E : Env) : ReportKeeps E fun a b => b.current = a.current where
  refl := fun _ => rfl
  trans := fun h h' => h'.trans h
  mark := by
    intro a filename
    unfold markError
    split <;> rfl
  convert := fun a region => (convertRegion_linesOnly E a region).current
  push := fun _ _ => rfl

theorem annotations_coresOf {E : Env} {annos : List AnnoCall} {p p' : Pass} (hp : PassOK E p)
    (h : annos.foldlM handleAnnotation p = some p') (f : Str) :
    coresOf p'.analyzer.current f = coresOf p.analyzer.current f := by
  refine (foldlM_inv (P := fun q => PassOK E q ∧
    coresOf q.analyzer.current f = coresOf p.analyzer.current f) (fun q q' call _ hq hs => ?_)
    ⟨hp, rfl⟩ h).2
  refine ⟨(handleAnnotation_effect hq.1 hs).ok, ?_⟩
  obtain ⟨-, file, sem, -, ha⟩ | ⟨id, g, scope, hid, hg, -, ha⟩ := handleAnnotation_cases hs
  · rw [ha]
    exact hq.2
  · obtain ⟨node, src, entry, hn, ho, -⟩ := hq.1.recent id hid
    rw [ha]
    exact (annotate_coresOf hq.1.wf hn ho hg f).trans hq.2

/-- The symbol is a label or a macro. -/
def isDefinition (sym : AsmSym) : Bool := sym.type = .label ∨ sym.type = .macroDef

/-- The callback lists a new definition for `sym`. -/
def emits (ctx : AsmCtx) (sym : AsmSym) : Bool :=
  ¬ ctx.repeats sym ∧ isDefinition sym ∧ ¬ sym.nameIsGenerated

/-- The node that `sym` gets, up to annotations. -/
structure EmittedAs (E : Env) (a : Analyzer) (entry : SrcId) (sym : AsmSym) (n : SymNode) :
    Prop where
  type : n.type = sym.type
  name : n.name = sym.name
  byteOffset : n.byteOffset = sym.region.range.start.byte
  origin : n.origin = .emitted entry
  range : n.range = (convertRange E a sym.region.filename.chars sym.region.range).2

/-- No list changes. -/
def SameLists (c c' : AnalyzerCtx) : Prop := ∀ f, coresOf c' f = coresOf c f

/-- The list of the file of `sym` gets one node in front, for `sym`; no other list changes. -/
def ListsNew (E : Env) (a : Analyzer) (entry : SrcId) (sym : AsmSym) (c' : AnalyzerCtx) : Prop :=
  ∃ n, EmittedAs E a entry sym n ∧ ∀ f, coresOf c' f =
    if f = sym.region.filename.chars then n :: coresOf a.current f else coresOf a.current f

/-- The cases of `putSymNode`: a definition with a name of its own is linked, nothing else
    touches the context. -/
theorem putSymNode_cases {E : Env} {p p' : Pass} {addr : UInt16} {sym : AsmSym}
    (h : putSymNode E p addr sym = some p') :
    ((isDefinition sym = true ∧ sym.nameIsGenerated = false) ∧ ∃ file a node,
      PutNode E p p' sym file a node ∧ a.current = p.analyzer.current) ∨
    (¬ (isDefinition sym = true ∧ sym.nameIsGenerated = false) ∧
      p'.analyzer.current = p.analyzer.current ∧ p'.ctx = p.ctx) := by
  obtain ⟨htype, hdef⟩ | ⟨⟨hm, hl⟩, refs, rfl⟩ := putSymNode_type_cases h
  · have hdefinition : isDefinition sym = true := by simp [isDefinition, htype.symm]
    obtain ⟨file, -, hg, rfl⟩ | ⟨hg, file, a, node, hput⟩ := putDefinition_cases hdef
    · refine Or.inr ⟨fun hc => ?_, noteSymbolByte_current _ _ _ _, rfl⟩
      rw [hg] at hc
      cases hc.2
    · exact Or.inl ⟨⟨hdefinition, hg⟩, file, a, node, hput,
        hput.lines.current.trans (noteSymbolByte_current _ _ _ _)⟩
  · refine Or.inr ⟨fun hc => ?_, rfl, rfl⟩
    simp [isDefinition, hl, hm] at hc

theorem putSymNode_coresOf {E : Env} {p p' : Pass} {addr : UInt16} {sym : AsmSym}
    (hp : PassOK E p) (h : putSymNode E p addr sym = some p') :
    ((isDefinition sym = true ∧ sym.nameIsGenerated = false) ∧
      ListsNew E p.analyzer p.ctx.entryNode sym p'.analyzer.current) ∨
    (¬ (isDefinition sym = true ∧ sym.nameIsGenerated = false) ∧
      SameLists p.analyzer.current p'.analyzer.current) := by
  obtain ⟨hdef, file, a, node, hput, hcur⟩ | ⟨hno, hcur, -⟩ := putSymNode_cases h
  · refine Or.inl ⟨hdef, core node, ⟨?_, ?_, ?_, ?_, ?_⟩, fun f => ?_⟩
    · rw [(core_key node).1, hput.type]
    · rw [(core_key node).2.1, hput.name]
    · rw [(core_key node).2.2, hput.byteOffset]
    · rw [core_origin, hput.origin]
    · rw [core_range, hput.range]
    · rw [hput.current, linkDefinition_coresOf (hcur ▸ hp.wf) hput.source, hcur]
  · exact Or.inr ⟨hno, fun f => by rw [hcur]⟩

/-- The definition that an event lists, with its file. -/
def emittedSym (ctx : AsmCtx) : Event → Option AsmSym
  | .putSymbol _ sym _ => if emits ctx sym then some sym else none
  | _ => none

/-- A callback lists the definition it emits and leaves every other list. -/
theorem applyEvent_coresOf {E : Env} {p p' : Pass} {ev : Event} (hp : PassOK E p)
    (h : applyEvent E p ev = some p') :
    (∃ sym, emittedSym p.ctx ev = some sym ∧
      ListsNew E p.analyzer p.ctx.entryNode sym p'.analyzer.current) ∨
    (emittedSym p.ctx ev = none ∧ SameLists p.analyzer.current p'.analyzer.current) := by
  have hreports := reports_current E
  cases ev with
  | fopen docs filename disk =>
      cases h
      exact Or.inr ⟨rfl, asmFopen_coresOf hp.wf docs filename disk⟩
  | report type r =>
      cases h
      exact Or.inr ⟨rfl, fun f => by rw [hreports.asmReport]⟩
  | putRom addr value =>
      cases h
      exact Or.inr ⟨rfl, fun _ => rfl⟩
  | chessReport traceId type r =>
      cases h
      exact Or.inr ⟨rfl, fun f => by rw [hreports.chessReport]⟩
  | chessDeo traceId s value port =>
      cases h
      exact Or.inr ⟨rfl, fun f => by rw [hreports.chessDeo]⟩
  | putSymbol addr sym annos =>
      simp only [emittedSym]
      obtain ⟨hrep, rfl⟩ | ⟨hrep, q, hq, h⟩ := asmPutSymbol_cases h
      · exact Or.inr ⟨by rw [if_neg]; simp [emits, hrep], fun _ => rfl⟩
      · have hput := putSymNode_effect hp hq
        have hprev : PassOK E { q with ctx := { q.ctx with previousSym := some sym } } :=
          ⟨hput.ok.wf, hput.ok.listed, hput.ok.recent⟩
        have hann := annotations_coresOf hprev h
        obtain ⟨⟨hd, hg⟩, n, hn, hcores⟩ | ⟨hno, hcores⟩ := putSymNode_coresOf hp hq
        · have hem : emits p.ctx sym = true := by
            simp only [Bool.not_eq_true] at hrep
            simp [emits, hrep, hd, hg]
          exact Or.inl ⟨sym, if_pos hem, n, hn, fun f => (hann f).trans (hcores f)⟩
        · refine Or.inr ⟨if_neg fun hem => hno ?_, fun f => (hann f).trans (hcores f)⟩
          simp only [emits, decide_eq_true_eq, Bool.not_eq_true] at hem
          exact ⟨hem.2.1, hem.2.2⟩

/-! ## Carried symbols -/

/-- The copies that the carry-forward loop makes of the old definitions `ids`. -/
def carriedNodes (previous : AnalyzerCtx) (source : SrcId) (last : Nat) (ids : List SymId) :
    List SymNode :=
  ids.filterMap fun id => (previous.syms[id]?).bind fun old =>
    if old.byteOffset ≤ last then none
    else some { old with source := source, origin := .carried id }

/-- What is carried into the list of a file with the data `file`. -/
def carriedOf (a : Analyzer) (filename : Str) (file : File) : List SymNode :=
  if file.hasError then
    match a.previous.srcOf filename, a.current.sources.find? filename with
    | some previousSrc, some source =>
      carriedNodes a.previous source file.lastSymbolByte previousSrc.definitions
    | _, _ => []
  else []

/-- What leaving a pass carries into the list of a file. -/
def carriedInto (a : Analyzer) (filename : Str) : List SymNode :=
  (a.files.find? filename).elim [] (carriedOf a filename)

theorem mem_carriedNodes_iff {previous : AnalyzerCtx} {source : SrcId} {last : Nat}
    {ids : List SymId} {n : SymNode} :
    n ∈ carriedNodes previous source last ids ↔ ∃ id ∈ ids, ∃ old : SymNode,
      previous.syms[id]? = some old ∧ last < old.byteOffset ∧
        n = { old with source := source, origin := .carried id } := by
  unfold carriedNodes
  rw [List.mem_filterMap]
  refine exists_congr fun id => and_congr_right fun _ => ?_
  rw [Option.bind_eq_some_iff]
  refine exists_congr fun old => and_congr_right fun _ => ?_
  by_cases hle : old.byteOffset ≤ last
  · rw [if_pos hle]
    exact ⟨fun h => (by cases h), fun h => absurd h.1 (Nat.not_lt.mpr hle)⟩
  · rw [if_neg hle]
    exact ⟨fun h => ⟨Nat.lt_of_not_le hle, (Option.some.inj h).symm⟩, fun h => by rw [h.2]⟩

/-- The inner loop puts its copies in front, the last one first. -/
theorem carrySymbols_coresOf {E : Env} {source : SrcId} (last : Nat) {filename : Str}
    (ids : List SymId) {a : Analyzer} (hw : CtxWF E a.current)
    (hs : a.current.sources.find? filename = some source) (f : Str) :
    coresOf (ids.foldl (carrySymbol source last) a).current f =
      if f = filename then
        (carriedNodes a.previous source last ids).reverse ++ coresOf a.current f
      else coresOf a.current f := by
  induction ids generalizing a with
  | nil =>
      rw [show carriedNodes a.previous source last [] = [] from rfl, List.reverse_nil,
        List.nil_append, ite_self]
      rfl
  | cons id ids ih =>
      have hcarry := carrySymbol_carries source last a id
      have heff := carrySymbol_effect (E := E) 0 last hs id
      rw [List.foldl_cons, ih (heff.steps.wf hw) (hcarry.sources ▸ hs), hcarry.previous]
      unfold carriedNodes carrySymbol
      rw [List.filterMap_cons]
      cases hold : a.previous.syms[id]? with
      | none => rfl
      | some old =>
          rw [Option.bind_some]
          dsimp only
          by_cases hle : old.byteOffset ≤ last
          · rw [if_pos hle, if_pos hle]
          · rw [if_neg hle, if_neg hle]
            dsimp only
            have hcur : ∀ n, (a.pushDefinition n).1.current = linkDefinition a.current n :=
              fun _ => rfl
            rw [hcur, linkDefinition_coresOf hw hs f]
            split
            · rw [List.reverse_cons, List.append_assoc, core_of_carried rfl]
              rfl
            · rfl

theorem carryFile_coresOf {E : Env} {a : Analyzer} (hw : CtxWF E a.current) (filename : Str)
    (file : File) (f : Str) :
    coresOf (carryFile a filename file).current f =
      if f = filename then (carriedOf a filename file).reverse ++ coresOf a.current f
      else coresOf a.current f := by
  have hnone : coresOf a.current f =
      if f = filename then ([] : List SymNode).reverse ++ coresOf a.current f
      else coresOf a.current f := by
    rw [List.reverse_nil, List.nil_append, ite_self]
  unfold carryFile carriedOf
  by_cases he : file.hasError = true
  · rw [if_pos he, if_pos he]
    cases hprev : a.previous.srcOf filename with
    | none => exact hnone
    | some previousSrc =>
        cases hcur : a.current.sources.find? filename with
        | none => exact hnone
        | some source => exact carrySymbols_coresOf _ _ hw hcur f
  · rw [if_neg he, if_neg he]
    exact hnone

/-- The carry-forward loop over some of the files. -/
theorem carryFiles_coresOf {E : Env} (es : List (Str × File)) (hnd : (es.map Prod.fst).Nodup)
    {a : Analyzer} (hw : CtxWF E a.current) (f : Str) :
    coresOf (es.foldl (fun a e => carryFile a e.1 e.2) a).current f =
      ((Table.lookupEntries f es).elim [] (carriedOf a f)).reverse ++ coresOf a.current f := by
  induction es generalizing a with
  | nil => rfl
  | cons e es ih =>
      rw [List.map_cons, List.nodup_cons] at hnd
      have hcarry := carryFile_carries a e.1 e.2
      have hsame : carriedOf (carryFile a e.1 e.2) f = carriedOf a f := by
        funext file
        unfold carriedOf
        rw [hcarry.previous, hcarry.sources]
      rw [List.foldl_cons, ih hnd.2 ((carryFile_effect E 0 a e.1 e.2).steps.wf hw), hsame,
        carryFile_coresOf hw]
      rw [show Table.lookupEntries f (e :: es) =
        if e.1 = f then some e.2 else Table.lookupEntries f es from rfl]
      by_cases h : e.1 = f
      · subst h
        have hno : Table.lookupEntries e.1 es = none :=
          (Table.find?_eq_none_iff ⟨es, hnd.2⟩ e.1).mpr hnd.1
        rw [if_pos rfl, if_pos rfl, hno]
        rfl
      · rw [if_neg h, if_neg (Ne.symm h)]

theorem carryForward_coresOf {E : Env} {a : Analyzer} (hw : CtxWF E a.current) (f : Str) :
    coresOf (carryForward a).current f = (carriedInto a f).reverse ++ coresOf a.current f :=
  carryFiles_coresOf a.files.entries a.files.nodup hw f

/-- Leaving a pass carries old symbols and touches no list else. -/
theorem leavePass_coresOf {E : Env} {a a' : Analyzer} (hw : CtxWF E a.current)
    (hd : DefsListed a) (h : leavePass E a = some a') (f : Str) :
    coresOf a'.current f = (carriedInto a f).reverse ++ coresOf a.current f := by
  have hc := carryForward_effect E 0 a
  rw [← carryForward_coresOf hw]
  refine (foldlM_inv (P := fun b => (CtxWF E b.current ∧ DefsListed b) ∧
    coresOf b.current f = coresOf (carryForward a).current f) (fun b b' sym _ hb hs => ?_)
    ⟨⟨hc.steps.wf hw, hc.listed hw hd⟩, rfl⟩ h).2
  obtain ⟨⟨hbw, hbd⟩, hb⟩ := hb
  have he := connectReference_effect (E := E) 0 hbd hs
  refine ⟨⟨he.steps.wf hbw, he.listed hbw hbd⟩, ?_⟩
  obtain ⟨-, rfl⟩ | ⟨d, b₁, node, -, hm, rfl⟩ := connectReference_cases hs
  · exact hb
  · have hcur := (makeSymNode_spec hm).1.current
    show coresOf (linkReference b₁.current node d) f = _
    rw [linkReference_coresOf (hcur ▸ hbw), hcur]
    exact hb

/-! ## Marks of files -/

/-- `last_symbol_byte` of a file, zero when it is not open. -/
def lastByteOf (a : Analyzer) (filename : Str) : Nat :=
  (a.files.find? filename).elim 0 File.lastSymbolByte

/-- `has_error` of a file, false when it is not open. -/
def erred (a : Analyzer) (filename : Str) : Bool :=
  (a.files.find? filename).elim false File.hasError

/-- Every file that is open has a source node. -/
def Opened (a : Analyzer) : Prop :=
  ∀ f, (a.files.find? f).isSome = true → (a.current.sources.find? f).isSome = true

/-- The marks only move up, `last_symbol_byte` to the bytes in `noted`. -/
structure MarksStep (noted : Option (Str × Nat)) (a a' : Analyzer) : Prop where
  last : ∀ f, lastByteOf a' f =
    (noted.filter fun e => e.1 = f).elim (lastByteOf a f) fun e => max (lastByteOf a f) e.2
  erred : ∀ f, erred a f = true → erred a' f = true
  opened : Opened a → Opened a'

theorem Opened.of_keys {a a' : Analyzer} (h : Opened a)
    (hk : ∀ f, (a'.files.find? f).isSome = (a.files.find? f).isSome)
    (hs : a'.current.sources = a.current.sources) : Opened a' :=
  fun f hf => hs ▸ h f (hk f ▸ hf)

theorem MarksStep.of_files {a a' : Analyzer} (h : a'.files = a.files)
    (hs : a'.current.sources = a.current.sources) : MarksStep none a a' where
  last := fun f => by unfold lastByteOf; rw [h]; rfl
  erred := fun f he => by unfold Analysis.erred; rw [h]; exact he
  opened := fun ho => ho.of_keys (fun f => by rw [h]) hs

/-- Steps that note no symbol compose with any step. -/
theorem MarksStep.trans_none {a b c : Analyzer} {noted : Option (Str × Nat)}
    (h : MarksStep noted a b) (h' : MarksStep none b c) : MarksStep noted a c where
  last := fun f => (h'.last f).trans (h.last f)
  erred := fun f he => h'.erred f (h.erred f he)
  opened := fun ho => h'.opened (h.opened ho)

theorem LinesOnly.marks_eq {a a' : Analyzer} (h : LinesOnly a a') (f : Str) :
    lastByteOf a' f = lastByteOf a f ∧ erred a' f = erred a f := by
  have hlast := congrArg (fun o => Option.elim o 0 id)
    (h.field f (g := File.lastSymbolByte) fun _ => rfl)
  have herr := congrArg (fun o => Option.elim o false id)
    (h.field f (g := File.hasError) fun _ => rfl)
  simp only [Option.elim_map, Function.id_comp] at hlast herr
  exact ⟨hlast, herr⟩

theorem LinesOnly.marks {a a' : Analyzer} (h : LinesOnly a a') : MarksStep none a a' :=
  ⟨fun f => (h.marks_eq f).1, fun f he => (h.marks_eq f).2 ▸ he, fun ho =>
    ho.of_keys (fun f => by simpa using congrArg Option.isSome (h.data f))
      (congrArg AnalyzerCtx.sources h.current)⟩

/-- Overwriting an open file. -/
theorem MarksStep.put {a a' : Analyzer} {filename : Str} {file : File}
    (noted : Option (Str × Nat)) (file' : File)
    (hf : a.files.find? filename = some file) (ha : a'.files = a.files.put filename file')
    (hs : a'.current.sources = a.current.sources) (hn : ∀ e ∈ noted, e.1 = filename)
    (hlast : file'.lastSymbolByte = noted.elim file.lastSymbolByte fun e =>
      max file.lastSymbolByte e.2)
    (herr : file.hasError = true → file'.hasError = true) : MarksStep noted a a' where
  last := by
    intro f
    unfold lastByteOf
    rw [ha, Table.find?_put]
    by_cases h : filename = f
    · subst h
      rw [if_pos rfl, hf, Option.elim_some, Option.elim_some, hlast]
      cases noted with
      | none => rfl
      | some e => rw [Option.filter_some, if_pos (by simpa using hn e rfl)]
    · rw [if_neg h]
      cases noted with
      | none => rfl
      | some e =>
          rw [Option.filter_some, if_neg (by simpa [hn e rfl] using h)]
          rfl
  erred := by
    intro f he
    unfold Analysis.erred at he ⊢
    rw [ha, Table.find?_put]
    by_cases h : filename = f
    · subst h
      rw [hf] at he
      rw [if_pos rfl]
      exact herr he
    · rw [if_neg h]
      exact he
  opened := fun ho => ho.of_keys (fun f => by
    rw [ha, Table.find?_put]
    split
    · rename_i h
      rw [← h, hf]
      rfl
    · rfl) hs

theorem markError_marks (a : Analyzer) (filename : Str) :
    MarksStep none a (markError a filename) := by
  unfold markError
  split
  · exact .of_files rfl rfl
  · rename_i file hf
    exact .put none { file with hasError := true } hf rfl rfl (fun e he => (by cases he)) rfl
      fun _ => rfl

theorem reports_marks (E : Env) : ReportKeeps E (MarksStep none) where
  refl := fun _ => .of_files rfl rfl
  trans := MarksStep.trans_none
  mark := markError_marks
  convert := fun a region => (convertRegion_linesOnly E a region).marks
  push := fun _ _ => .of_files rfl rfl

theorem openSource_sources (c : AnalyzerCtx) (entry node : SrcId) :
    (openSource c entry node).sources = c.sources := by
  unfold openSource
  split <;> rfl

/-- A file that was open is kept, a new one is unmarked. -/
theorem asmFopen_unmarked (E : Env) (p : Pass) (docs : Docs) (filename : CStr) (disk : Option Str)
    (f : Str) :
    (asmFopen E p docs filename disk).1.analyzer.files.find? f = p.analyzer.files.find? f ∨
      (f = filename.chars ∧ p.analyzer.files.find? f = none ∧
        ∃ file : File, (asmFopen E p docs filename disk).1.analyzer.files.find? f = some file ∧
          file.lastSymbolByte = 0 ∧ file.hasError = false) := by
  rcases asmFopen_cases E p docs filename disk with he | ⟨content, c, node, -, -, -, hfiles⟩
  · rw [he]
    exact Or.inl rfl
  · rw [hfiles]
    unfold captureFile putFile
    split
    · exact Or.inl rfl
    · rename_i hnone
      rw [Table.find?_put]
      split
      · rename_i h
        exact Or.inr ⟨h.symm, h ▸ by simpa using hnone, _, rfl, rfl, rfl⟩
      · exact Or.inl rfl

/-- A file enters the table unmarked, with its node. -/
theorem asmFopen_marks (E : Env) (p : Pass) (docs : Docs) (filename : CStr) (disk : Option Str) :
    MarksStep none p.analyzer (asmFopen E p docs filename disk).1.analyzer := by
  have hfind := asmFopen_unmarked E p docs filename disk
  rcases asmFopen_cases E p docs filename disk with he | ⟨content, c, node, -, hc, hcur, -⟩
  · rw [he]
    exact .of_files rfl rfl
  · have hnode : (c.sources.find? filename.chars).isSome = true ∧
        ∀ f, (p.analyzer.current.sources.find? f).isSome = true →
          (c.sources.find? f).isSome = true := by
      obtain ⟨rfl, hsome⟩ | ⟨-, rfl, -⟩ := hc
      · exact ⟨by rw [hsome]; rfl, fun f hf => hf⟩
      · refine ⟨by rw [addSource, Table.find?_put_self]; rfl, fun f hf => ?_⟩
        rw [addSource, Table.find?_put]
        split
        · rfl
        · exact hf
    constructor
    · intro f
      unfold lastByteOf
      rcases hfind f with h | ⟨-, hnone, file, hfile, hlast, -⟩
      · rw [h]
        rfl
      · rw [hnone, hfile]
        exact hlast
    · intro f he
      unfold Analysis.erred at he ⊢
      rcases hfind f with h | ⟨-, hnone, -⟩
      · rw [h]
        exact he
      · rw [hnone] at he
        cases he
    · intro ho f hf
      rw [hcur, openSource_sources]
      rcases hfind f with h | ⟨rfl, -⟩
      · exact hnode.2 f (ho f (h ▸ hf))
      · exact hnode.1

theorem annotations_marks {annos : List AnnoCall} {p p' : Pass}
    (h : annos.foldlM handleAnnotation p = some p') : MarksStep none p.analyzer p'.analyzer := by
  refine foldlM_inv (P := fun q => MarksStep none p.analyzer q.analyzer)
    (fun q q' call _ hq hs => hq.trans_none ?_) (.of_files rfl rfl) h
  obtain ⟨-, file, sem, hf, ha⟩ | ⟨id, g, scope, -, -, -, ha⟩ := handleAnnotation_cases hs
  · rw [ha]
    exact .put none { file with zeroPageSemantics := sem } hf rfl rfl (fun e he => (by cases he))
      rfl id
  · rw [ha]
    exact .of_files rfl rfl

/-- The symbol is a definition and no repeat of the previous one, so its byte is noted. -/
def notes (ctx : AsmCtx) (sym : AsmSym) : Bool := ¬ ctx.repeats sym ∧ isDefinition sym

/-- The file and byte that a callback notes. -/
def notedBy (ctx : AsmCtx) : Event → Option (Str × Nat)
  | .putSymbol _ sym _ =>
    if notes ctx sym then some (sym.region.filename.chars, sym.region.range.start.byte) else none
  | _ => none

theorem noteSymbolByte_marks {a : Analyzer} {filename : Str} {file : File} (byte : Nat)
    (hf : a.files.find? filename = some file) :
    MarksStep (some (filename, byte)) a (noteSymbolByte a filename file byte) := by
  unfold noteSymbolByte
  split
  · rename_i hgt
    refine .put _ { file with lastSymbolByte := byte } hf rfl rfl
      (fun e he => (by cases he; rfl)) ?_ id
    show byte = max file.lastSymbolByte byte
    omega
  · rename_i hle
    have hlast : lastByteOf a filename = file.lastSymbolByte := by
      unfold lastByteOf
      rw [hf]
      rfl
    refine ⟨fun f => ?_, fun _ => id, id⟩
    rw [Option.filter_some]
    split
    · rename_i h
      obtain rfl : filename = f := by simpa using h
      show lastByteOf a filename = max (lastByteOf a filename) byte
      omega
    · rfl

theorem putDefinition_marks {E : Env} {p p' : Pass} {addr : UInt16} {sym : AsmSym}
    (h : putDefinition E p addr sym = some p') :
    MarksStep (some (sym.region.filename.chars, sym.region.range.start.byte))
      p.analyzer p'.analyzer := by
  obtain ⟨file, hf, -, rfl⟩ | ⟨-, file, a, node, hput⟩ := putDefinition_cases h
  · exact noteSymbolByte_marks _ hf
  · obtain ⟨mds, lds, ha, -⟩ := hput.analyzer
    rw [ha]
    exact ((noteSymbolByte_marks _ hput.opened).trans_none hput.lines.marks).trans_none
      (.of_files rfl rfl)

/-- A callback notes the byte of the definition it delivers. -/
theorem applyEvent_marks {E : Env} {p p' : Pass} {ev : Event} (h : applyEvent E p ev = some p') :
    MarksStep (notedBy p.ctx ev) p.analyzer p'.analyzer := by
  cases ev with
  | fopen docs filename disk =>
      cases h
      exact asmFopen_marks E p docs filename disk
  | report type r =>
      cases h
      exact (reports_marks E).asmReport p.analyzer type r
  | putRom addr value =>
      cases h
      exact .of_files rfl rfl
  | chessReport traceId type r =>
      cases h
      exact (reports_marks E).chessReport p.analyzer traceId type r
  | chessDeo traceId s value port =>
      cases h
      exact (reports_marks E).chessDeo p.analyzer traceId s value port
  | putSymbol addr sym annos =>
      simp only [notedBy]
      obtain ⟨hrep, rfl⟩ | ⟨hrep, q, hq, hannos⟩ := asmPutSymbol_cases h
      · rw [if_neg (by simp [notes, hrep])]
        exact .of_files rfl rfl
      · have hann := annotations_marks hannos
        have hput : MarksStep (if notes p.ctx sym then
            some (sym.region.filename.chars, sym.region.range.start.byte) else none)
            p.analyzer q.analyzer := by
          obtain ⟨ht, hdef⟩ | ⟨⟨hm, hl⟩, refs, rfl⟩ := putSymNode_type_cases hq
          · rw [if_pos (by simpa [notes, isDefinition, ht.symm] using hrep)]
            exact putDefinition_marks hdef
          · rw [if_neg (by simp [notes, isDefinition, hm, hl])]
            exact .of_files rfl rfl
        exact hput.trans_none hann

/-- Leaving a pass moves no mark. -/
theorem leavePass_marks {E : Env} {a a' : Analyzer} (h : leavePass E a = some a') :
    (∀ f, lastByteOf a' f = lastByteOf a f ∧ erred a' f = erred a f) ∧
      (Opened a → Opened a') := by
  have hcarry := carryForward_carries a
  refine foldlM_inv (P := fun b => (∀ f, lastByteOf b f = lastByteOf a f ∧
    erred b f = erred a f) ∧ (Opened a → Opened b)) (fun b b' sym _ hb hs => ?_) ⟨fun f => ?_, ?_⟩ h
  · obtain ⟨-, rfl⟩ | ⟨d, c, node, -, hm, rfl⟩ := connectReference_cases hs
    · exact hb
    · have hl := (makeSymNode_spec hm).1
      refine ⟨fun f => ?_, fun ho => hl.marks.opened (hb.2 ho)⟩
      exact ⟨(hl.marks_eq f).1.trans (hb.1 f).1, (hl.marks_eq f).2.trans (hb.1 f).2⟩
  · have hlast := congrArg (fun fs => (Table.find? fs f).elim 0 File.lastSymbolByte) hcarry.files
    have herr := congrArg (fun fs => (Table.find? fs f).elim false File.hasError) hcarry.files
    exact ⟨hlast, herr⟩
  · exact (MarksStep.of_files hcarry.files hcarry.sources).opened

end BuxnLs.Analysis
