/-
  Go-to-definition against find-references. A reference leads to its definition by an edge, a
  references request finds a definition by its position, as the first of its file whose range
  covers it. The two agree where every definition with an incoming edge is `shown`: first at its
  own start. `KeepsShown` says when a step keeps that.
-/
import BuxnLs.Analysis.Once
import BuxnLs.Model.Handlers
import Mathlib.Data.List.Find

namespace BuxnLs.Analysis

open BuxnLs.Lib BuxnLs.Model Relation

/-! ## Contexts grow -/

/-- `c'` has the lists of `c` with nodes in front, and the nodes of `c` up to annotations. -/
structure Grows (c c' : AnalyzerCtx) : Prop where
  definitions : ∀ f, ∃ new, definitionsOf c' f = new ++ definitionsOf c f
  syms : ∀ (id : SymId) (n : SymNode), c.syms[id]? = some n →
    ∃ n' : SymNode, c'.syms[id]? = some n' ∧ core n' = core n
  sources : ∀ (f : Str) (id : SrcId), c.sources.find? f = some id →
    c'.sources.find? f = some id

theorem Grows.refl (c : AnalyzerCtx) : Grows c c :=
  ⟨fun _ => ⟨[], rfl⟩, fun _ n hn => ⟨n, hn, rfl⟩, fun _ _ h => h⟩

theorem Grows.trans {a b c : AnalyzerCtx} (h : Grows a b) (h' : Grows b c) : Grows a c where
  definitions := by
    intro f
    obtain ⟨new, hn⟩ := h.definitions f
    obtain ⟨new', hn'⟩ := h'.definitions f
    exact ⟨new' ++ new, by rw [hn', hn, List.append_assoc]⟩
  syms := by
    intro id n hn
    obtain ⟨n', hn', he⟩ := h.syms id n hn
    obtain ⟨n'', hn'', he'⟩ := h'.syms id n' hn'
    exact ⟨n'', hn'', he'.trans he⟩
  sources := fun f id hf => h'.sources f id (h.sources f id hf)

theorem CtxStep.grows {E : Env} {entry : SrcId} {c c' : AnalyzerCtx} (hc : CtxWF E c)
    (h : CtxStep E entry c c') : Grows c c' := by
  have hsources := fun f id => @find?_sources_of_step _ _ _ _ h f id
  cases h with
  | addSource hnew =>
      exact ⟨fun f => ⟨[], addSource_definitionsOf hc hnew f⟩, fun _ n hn => ⟨n, hn, rfl⟩, hsources⟩
  | openSource _ =>
      exact ⟨fun f => ⟨[], openSource_definitionsOf c _ _ f⟩,
        fun _ n hn => ⟨n, openSource_syms c _ _ ▸ hn, rfl⟩, hsources⟩
  | definition hf =>
      refine ⟨fun f => ?_, fun _ n hn => ⟨n, getElem?_alloc_old hn, rfl⟩, hsources⟩
      rw [linkDefinition_definitionsOf hc hf]
      split
      · exact ⟨[c.syms.length], rfl⟩
      · exact ⟨[], rfl⟩
  | reference _ _ =>
      exact ⟨fun f => ⟨[], linkReference_definitionsOf c _ _ f⟩,
        fun _ n hn => ⟨n, getElem?_alloc_old hn, rfl⟩, hsources⟩
  | @annotate id node e f hn ho hf =>
      refine ⟨fun f => ⟨[], rfl⟩, fun i n hi => ?_, hsources⟩
      refine ⟨_, (getElem?_modify_iff _ _ _ _ _).mpr ⟨n, hi, rfl⟩, ?_⟩
      split
      · rename_i he
        subst he
        obtain rfl : n = node := Option.some.inj (hi.symm.trans hn)
        exact core_annotates hf ho
      · rfl

theorem CtxSteps.grows {E : Env} {entry : SrcId} {c c' : AnalyzerCtx} (hc : CtxWF E c)
    (h : CtxSteps E entry c c') : Grows c c' :=
  (CtxSteps.inv (P := fun x => CtxWF E x ∧ Grows c x)
    (fun _ _ hx hs => ⟨hs.wf hx.1, hx.2.trans (hs.grows hx.1)⟩) ⟨hc, Grows.refl c⟩ h).2

/-! ## Shown definitions -/

/-- `d` is the first definition of its file that covers the start of `d`. -/
def shown (c : AnalyzerCtx) (d : SymId) : Bool :=
  (c.syms[d]?).any fun n => (c.srcs[n.source]?).any fun src =>
    src.definitions.find? (c.coversAt n.range.start) = some d

/-- A node of the file with this range would cover the start of `d`. -/
def hides (c : AnalyzerCtx) (f : Str) (range : Range) (d : SymId) : Bool :=
  (c.syms[d]?).any fun n => c.sources.find? f = some n.source ∧ range.covers n.range.start

theorem shown_iff_find? {E : Env} {c : AnalyzerCtx} (hc : CtxWF E c) {d : SymId} {n : SymNode}
    {f : Str} (hn : c.syms[d]? = some n) (hf : c.sources.find? f = some n.source) :
    shown c d = true ↔ (definitionsOf c f).find? (c.coversAt n.range.start) = some d := by
  obtain ⟨src, hs, -⟩ := hc.sources f n.source hf
  unfold shown
  rw [hn, Option.any_some, hs, Option.any_some, definitionsOf_of_srcs hf hs, decide_eq_true_eq]

theorem coversAt_of_some {c : AnalyzerCtx} {position : Position} {id : SymId} {n : SymNode}
    (h : c.syms[id]? = some n) : c.coversAt position id = n.range.covers position := by
  unfold AnalyzerCtx.coversAt
  rw [h, Option.elim_some]

/-- A definition stays shown exactly when no new node in front covers its start. -/
theorem shown_grows_iff {E : Env} {c c' : AnalyzerCtx} (hc : CtxWF E c) (hc' : CtxWF E c')
    (hg : Grows c c') {d : SymId} {n : SymNode} {f : Str} (hn : c.syms[d]? = some n)
    (hf : c.sources.find? f = some n.source) (hd : d ∈ definitionsOf c f) {new : List SymNode}
    (hnew : coresOf c' f = new ++ coresOf c f) :
    shown c' d = true ↔
      shown c d = true ∧ ∀ x ∈ new, x.range.covers n.range.start = false := by
  obtain ⟨ids, hids⟩ := hg.definitions f
  obtain ⟨n', hn', hcore⟩ := hg.syms d n hn
  have hrange : n'.range = n.range := by rw [← core_range n', hcore, core_range]
  have hsource : n'.source = n.source := by rw [← core_source n', hcore, core_source]
  have hf' : c'.sources.find? f = some n'.source := hsource ▸ hg.sources f _ hf
  obtain ⟨hnd, hvalid'⟩ := linked_definitionsOf hc' f
  have hvalid := (linked_definitionsOf hc f).2
  -- the new nodes are those of the new ids
  have hold : (c'.nodes (definitionsOf c f)).map core = coresOf c f := by
    refine cores_congr (fun id _ => hg.syms id) fun id hid => ?_
    obtain ⟨m, hm, -⟩ := hvalid id hid
    exact ⟨m, hm⟩
  have hcores : (c'.nodes ids).map core = new := by
    have hall : coresOf c' f = (c'.nodes ids).map core ++ coresOf c f := by
      rw [← hold, coresOf, listed, hids, AnalyzerCtx.nodes, List.filterMap_append, List.map_append]
      rfl
    exact List.append_cancel_right (hall.symm.trans hnew)
  have hids_cover : ids.find? (c'.coversAt n.range.start) = none ↔
      ∀ x ∈ new, x.range.covers n.range.start = false := by
    rw [List.find?_eq_none, ← hcores]
    constructor
    · intro h x hx
      obtain ⟨m, hm, rfl⟩ := List.mem_map.mp hx
      obtain ⟨id, hid, hm⟩ := mem_nodes_iff.mp hm
      have hno := h id hid
      rw [coversAt_of_some hm] at hno
      rw [core_range]
      exact Bool.eq_false_iff.mpr hno
    · intro h id hid
      obtain ⟨m, hm, -⟩ := hvalid' id (hids ▸ List.mem_append_left _ hid)
      rw [coversAt_of_some hm]
      have hno := h _ (List.mem_map_of_mem (mem_nodes_iff.mpr ⟨id, hid, hm⟩))
      rw [core_range] at hno
      rw [hno]
      exact Bool.false_ne_true
  have hold_cover : (definitionsOf c f).find? (c'.coversAt n.range.start) =
      (definitionsOf c f).find? (c.coversAt n.range.start) := by
    refine List.find?_congr fun id hid => ?_
    obtain ⟨m, hm, -⟩ := hvalid id hid
    obtain ⟨m', hm', he⟩ := hg.syms id m hm
    rw [coversAt_of_some hm, coversAt_of_some hm', ← core_range m', he, core_range]
  rw [shown_iff_find? hc' hn' hf', shown_iff_find? hc hn hf, hrange, hids, List.find?_append,
    hold_cover, ← hids_cover]
  cases hfind : ids.find? (c'.coversAt n.range.start) with
  | none => rw [Option.none_or]; exact ⟨fun h => ⟨h, rfl⟩, And.left⟩
  | some e =>
      rw [Option.some_or]
      refine iff_of_false (fun he => ?_) fun h => by cases h.2
      -- the ids in front are not those behind
      have hmem := List.mem_of_find?_eq_some hfind
      rw [hids, List.nodup_append] at hnd
      rw [Option.some.inj he] at hmem
      exact hnd.2.2 d hmem d hd rfl

/-! ## Edges -/

/-- The definitions with an incoming edge. -/
def referenced (c : AnalyzerCtx) : List SymId := c.symGraph.edges.map Prod.snd

/-- The definitions that the pending references of the pass resolve to. -/
def resolved (a : Analyzer) : List SymId := a.references.filterMap (resolveReference a)

theorem asmFopen_symGraph (E : Env) (p : Pass) (docs : Docs) (filename : CStr)
    (disk : Option Str) :
    (asmFopen E p docs filename disk).1.analyzer.current.symGraph =
      p.analyzer.current.symGraph := by
  have hopen : ∀ (c : AnalyzerCtx) (entry node : SrcId),
      (openSource c entry node).symGraph = c.symGraph := by
    intro c entry node
    unfold openSource
    split <;> rfl
  rcases asmFopen_cases E p docs filename disk with he | ⟨content, c, node, -, hc, hcur, -⟩
  · rw [he]
  · rw [hcur, hopen]
    obtain ⟨rfl, -⟩ | ⟨-, rfl, -⟩ := hc
    · rfl
    · rfl

theorem annotations_symGraph {annos : List AnnoCall} {p p' : Pass}
    (h : annos.foldlM handleAnnotation p = some p') :
    p'.analyzer.current.symGraph = p.analyzer.current.symGraph := by
  refine foldlM_inv (P := fun q => q.analyzer.current.symGraph = p.analyzer.current.symGraph)
    (fun q q' call _ hq hs => ?_) rfl h
  obtain ⟨-, file, sem, -, ha⟩ | ⟨id, g, scope, -, -, -, ha⟩ := handleAnnotation_cases hs
  · rw [ha]
    exact hq
  · rw [ha]
    exact hq

theorem putSymNode_symGraph {E : Env} {p p' : Pass} {addr : UInt16} {sym : AsmSym}
    (h : putSymNode E p addr sym = some p') :
    p'.analyzer.current.symGraph = p.analyzer.current.symGraph := by
  obtain ⟨-, file, a, node, hput, hcur⟩ | ⟨-, hcur, -⟩ := putSymNode_cases h
  · rw [hput.current, ← hcur]
    rfl
  · rw [hcur]

/-- No callback connects symbols. -/
theorem applyEvent_symGraph {E : Env} {p p' : Pass} {ev : Event}
    (h : applyEvent E p ev = some p') :
    p'.analyzer.current.symGraph = p.analyzer.current.symGraph := by
  have hreports := reports_current E
  cases ev with
  | fopen docs filename disk =>
      cases h
      exact asmFopen_symGraph E p docs filename disk
  | report type r =>
      cases h
      exact congrArg AnalyzerCtx.symGraph (hreports.asmReport p.analyzer type r)
  | putRom addr value =>
      cases h
      rfl
  | chessReport traceId type r =>
      cases h
      exact congrArg AnalyzerCtx.symGraph (hreports.chessReport p.analyzer traceId type r)
  | chessDeo traceId s value port =>
      cases h
      exact congrArg AnalyzerCtx.symGraph (hreports.chessDeo p.analyzer traceId s value port)
  | putSymbol addr sym annos =>
      obtain ⟨-, rfl⟩ | ⟨-, q, hq, hannos⟩ := asmPutSymbol_cases h
      · rfl
      · have hann := annotations_symGraph hannos
        have hput := putSymNode_symGraph hq
        exact hann.trans hput

theorem resolveReference_congr {a b : Analyzer} (hm : b.macroDefs = a.macroDefs)
    (hl : b.labelDefs = a.labelDefs) : resolveReference b = resolveReference a := by
  funext sym
  unfold resolveReference
  rw [hm, hl]

/-- The loop over the references connects what they resolve to. -/
theorem connectReferences_referenced {E : Env} (syms : List AsmSym) {a a' : Analyzer}
    (h : syms.foldlM (connectReference E) a = some a') (d : SymId) :
    d ∈ referenced a'.current ↔
      d ∈ referenced a.current ∨ d ∈ syms.filterMap (resolveReference a) := by
  induction syms generalizing a with
  | nil =>
      obtain rfl := Option.some.inj h
      simp
  | cons sym syms ih =>
      rw [List.foldlM_cons, Option.bind_eq_bind, Option.bind_eq_some_iff] at h
      obtain ⟨b, hb, h⟩ := h
      rw [ih h, List.filterMap_cons]
      obtain ⟨hr, rfl⟩ | ⟨e, b', node, hr, hm, rfl⟩ := connectReference_cases hb
      · rw [hr]
      · have hlines := (makeSymNode_spec hm).1
        have hres := resolveReference_congr hlines.macroDefs hlines.labelDefs
        have hnext : resolveReference { b' with current := linkReference b'.current node e } =
            resolveReference a := hres
        have hedges : referenced (linkReference b'.current node e) =
            e :: referenced a.current := by
          rw [← hlines.current]
          rfl
        rw [hr, hnext]
        dsimp only
        rw [hedges, List.mem_cons, List.mem_cons]
        exact or_assoc.trans or_left_comm

theorem leavePass_referenced {E : Env} {a a' : Analyzer} (h : leavePass E a = some a')
    (d : SymId) :
    d ∈ referenced a'.current ↔ d ∈ referenced a.current ∨ d ∈ resolved a := by
  have hcarry := carryForward_carries a
  have hconnect := connectReferences_referenced _ h d
  rw [resolveReference_congr hcarry.macroDefs hcarry.labelDefs, hcarry.references] at hconnect
  rw [hconnect]
  unfold referenced resolved
  rw [hcarry.symGraph]

/-! ## Steps -/

/-- The definitions that a step is about to connect. -/
def resolvedAt (m : Machine) : Label → List SymId
  | .leave => resolved m.analyzer
  | _ => []

/-- The files and ranges of the nodes that a step lists, emitted or carried. -/
def added (E : Env) (m : Machine) (l : Label) : List (Str × Range) :=
  (emission m l).toList.map (fun e => (e.2.region.filename.chars,
    (convertRange E m.analyzer e.2.region.filename.chars e.2.region.range).2)) ++
  (carriedAt m l).map fun x => (x.1, x.2.range)

/-- A step connects shown definitions only, and nothing it lists covers the start of a
    definition that is referenced or that it connects. -/
def KeepsShown (E : Env) (m : Machine) (l : Label) : Prop :=
  (∀ d ∈ resolvedAt m l, shown m.analyzer.current d = true) ∧
    ∀ d ∈ referenced m.analyzer.current ++ resolvedAt m l, ∀ y ∈ added E m l,
      hides m.analyzer.current y.1 y.2 d = false

instance (E : Env) (m : Machine) (l : Label) : Decidable (KeepsShown E m l) :=
  inferInstanceAs (Decidable (_ ∧ _))

/-- Every definition that is referenced is shown. -/
def ShownAll (c : AnalyzerCtx) : Prop := ∀ d ∈ referenced c, shown c d = true

theorem step_referenced {E : Env} {m m' : Machine} {l : Label} (h : step E m l = some m')
    (hl : ∀ docs, l ≠ .start docs) (d : SymId) :
    d ∈ referenced m'.analyzer.current ↔
      d ∈ referenced m.analyzer.current ++ resolvedAt m l := by
  cases step_cases h with
  | start _ _ => exact absurd rfl (hl _)
  | skip _ _ _ => simp [resolvedAt]
  | enter _ _ _ => simp [resolvedAt, startPass]
  | event _ hev =>
      have hg := applyEvent_symGraph hev
      unfold referenced
      rw [hg]
      simp [resolvedAt]
  | asmDone _ _ _ => simp [resolvedAt]
  | asmEnded _ _ => simp [resolvedAt]
  | chessDone _ => simp [resolvedAt]
  | leave _ ha => rw [List.mem_append]; exact leavePass_referenced ha d
  | finish _ _ => simp [resolvedAt, analyzeFinish]

/-- The nodes a step puts in front of a list have the ranges in `added`. -/
theorem step_added {E : Env} {m m' : Machine} {l : Label} (hm : MachineOK E m)
    (h : step E m l = some m') (hl : ∀ docs, l ≠ .start docs) (f : Str) :
    ∃ new, coresOf m'.analyzer.current f = new ++ coresOf m.analyzer.current f ∧
      ∀ range, (∃ x ∈ new, x.range = range) ↔ (f, range) ∈ added E m l := by
  cases step_lists hm h hl with
  | quiet hev hle hc _ _ =>
      refine ⟨[], by rw [hc]; rfl, fun range => ?_⟩
      cases l with
      | event ev => exact absurd rfl (hev ev)
      | leave => exact absurd rfl hle
      | _ => simp [added, emission, carriedAt]
  | event hctx he hsame _ _ =>
      refine ⟨[], hsame f, fun range => ?_⟩
      simp [added, emission, carriedAt, hctx, he]
  | @emit ctx ev sym hctx he hnew _ _ =>
      obtain ⟨n, hn, hcores⟩ := hnew
      have hadded : added E m (.event ev) = [(sym.region.filename.chars, n.range)] := by
        simp [added, emission, carriedAt, hctx, he, hn.range]
      rw [hcores, hadded]
      by_cases hf : f = sym.region.filename.chars
      · refine ⟨[n], by rw [if_pos hf]; rfl, fun range => ?_⟩
        simp [hf, eq_comm]
      · refine ⟨[], by rw [if_neg hf]; rfl, fun range => ?_⟩
        simp [hf]
  | leave hcores _ _ =>
      refine ⟨_, hcores f, fun range => ?_⟩
      have hadded : added E m .leave = (carriedAt m .leave).map fun x => (x.1, x.2.range) := rfl
      rw [hadded, List.mem_map]
      constructor
      · rintro ⟨x, hx, rfl⟩
        exact ⟨(f, x), mem_carriedAt_iff.mpr (List.mem_reverse.mp hx), rfl⟩
      · rintro ⟨⟨g, x⟩, hx, he⟩
        cases he
        exact ⟨x, List.mem_reverse.mpr (mem_carriedAt_iff.mp hx), rfl⟩

/-- A definition that is shown is listed by its file. -/
theorem listed_of_shown {E : Env} {c : AnalyzerCtx} (hc : CtxWF E c) {d : SymId}
    (h : shown c d = true) : ∃ n f, c.syms[d]? = some n ∧ c.sources.find? f = some n.source ∧
      d ∈ definitionsOf c f := by
  obtain ⟨n, hn, hsome⟩ := Option.any_eq_true _ _ |>.mp h
  obtain ⟨src, hs, hfind⟩ := Option.any_eq_true _ _ |>.mp hsome
  have hf := (hc.named _ src hs).1
  refine ⟨n, src.filename, hn, hf, ?_⟩
  rw [definitionsOf_of_srcs hf hs]
  exact List.mem_of_find?_eq_some (of_decide_eq_true hfind)

theorem listed_of_defined {E : Env} {c : AnalyzerCtx} (hc : CtxWF E c) {d : SymId}
    (h : Defined c d) : ∃ n f, c.syms[d]? = some n ∧ c.sources.find? f = some n.source ∧
      d ∈ definitionsOf c f := by
  obtain ⟨n, src, entry, hn, -, hs, hmem⟩ := h
  have hf := (hc.named _ src hs).1
  exact ⟨n, src.filename, hn, hf, by rw [definitionsOf_of_srcs hf hs]; exact hmem⟩

theorem hides_iff {E : Env} {c : AnalyzerCtx} (hc : CtxWF E c) {d : SymId} {n : SymNode}
    {f : Str} (hn : c.syms[d]? = some n) (hf : c.sources.find? f = some n.source) (g : Str)
    (range : Range) :
    hides c g range d = true ↔ g = f ∧ range.covers n.range.start = true := by
  unfold hides
  rw [hn, Option.any_some, decide_eq_true_eq]
  refine and_congr_left fun _ => ⟨fun hg => ?_, fun hg => hg ▸ hf⟩
  obtain ⟨src, hs, hname⟩ := hc.sources g _ hg
  obtain ⟨src', hs', hname'⟩ := hc.sources f _ hf
  rw [hs] at hs'
  cases hs'
  exact hname.symm.trans hname'

/-- A step keeps every referenced definition shown exactly when it meets `KeepsShown`. -/
theorem step_shownAll_iff {E : Env} {m m' : Machine} {l : Label} (hm : MachineOK E m)
    (hall : ShownAll m.analyzer.current) (h : step E m l = some m') :
    ShownAll m'.analyzer.current ↔ KeepsShown E m l := by
  by_cases hl : ∃ docs, l = .start docs
  · obtain ⟨docs, rfl⟩ := hl
    cases step_cases h with
    | start _ ha =>
        obtain ⟨hb, -⟩ := analyzeBegin_begun ha
        refine iff_of_true (fun d hd => ?_) ⟨fun d hd => absurd hd List.not_mem_nil,
          fun d _ y hy => absurd hy List.not_mem_nil⟩
        unfold referenced at hd
        rw [hb.symGraph] at hd
        exact absurd hd List.not_mem_nil
  · have hl : ∀ docs, l ≠ .start docs := fun docs he => hl ⟨docs, he⟩
    have hm' := step_ok hm h
    have hgrows : Grows m.analyzer.current m'.analyzer.current := by
      cases step_cases h with
      | start _ _ => exact absurd rfl (hl _)
      | event hctx hev => exact (applyEvent_effect (hm.pass hctx) hev).effect.steps.grows hm.current
      | leave hp ha =>
          exact (leavePass_effect 0 hm.current (hm.listed (hp ▸ trivial)) ha).steps.grows hm.current
      | _ => exact Grows.refl _
    -- what the step leaves referenced was listed before it
    have hlisted : ∀ d ∈ referenced m.analyzer.current ++ resolvedAt m l,
        ∃ n f, m.analyzer.current.syms[d]? = some n ∧
          m.analyzer.current.sources.find? f = some n.source ∧
          d ∈ definitionsOf m.analyzer.current f := by
      intro d hd
      rcases List.mem_append.mp hd with hd | hd
      · exact listed_of_shown hm.current (hall d hd)
      · cases step_cases h with
        | leave hp _ =>
            obtain ⟨sym, -, hr⟩ := List.mem_filterMap.mp hd
            exact listed_of_defined hm.current
              (resolveReference_defined (hm.listed (hp ▸ trivial)) hr)
        | _ => exact absurd hd List.not_mem_nil
    have hone : ∀ d ∈ referenced m.analyzer.current ++ resolvedAt m l,
        (shown m'.analyzer.current d = true ↔ shown m.analyzer.current d = true ∧
          ∀ y ∈ added E m l, hides m.analyzer.current y.1 y.2 d = false) := by
      intro d hd
      obtain ⟨n, f, hn, hf, hmem⟩ := hlisted d hd
      obtain ⟨new, hnew, hranges⟩ := step_added hm h hl f
      rw [shown_grows_iff hm.current hm'.current hgrows hn hf hmem hnew]
      refine and_congr_right fun _ => ⟨fun hno y hy => ?_, fun hno x hx => ?_⟩
      · rw [← Bool.not_eq_true, hides_iff hm.current hn hf]
        rintro ⟨hfile, hcover⟩
        obtain ⟨x, hx, hrange⟩ := (hranges y.2).mpr (hfile ▸ hy)
        rw [← hrange, hno x hx] at hcover
        cases hcover
      · have hy := hno _ ((hranges x.range).mp ⟨x, hx, rfl⟩)
        rw [← Bool.not_eq_true, hides_iff hm.current hn hf] at hy
        exact Bool.eq_false_iff.mpr fun hcover => hy ⟨rfl, hcover⟩
    unfold ShownAll KeepsShown
    simp only [step_referenced h hl]
    constructor
    · intro hshown
      exact ⟨fun d hd => ((hone d (List.mem_append_right _ hd)).mp
        (hshown d (List.mem_append_right _ hd))).1,
        fun d hd => ((hone d hd).mp (hshown d hd)).2⟩
    · rintro ⟨hres, hno⟩ d hd
      refine (hone d hd).mpr ⟨?_, hno d hd⟩
      exact (List.mem_append.mp hd).elim (hall d) (hres d)

/-! ## Consistency -/

/-- Where a position in a file leads by a reference `r` to a definition `d`, a references
    request at the start of `d` answers with the location of `r`. -/
def Consistent (E : Env) (c : AnalyzerCtx) : Prop :=
  ∀ value r d, findReference E c value = some r → findDefinition E c value = some d →
    ∀ ref node : SymNode, c.syms[r]? = some ref → c.syms[d]? = some node →
      ∀ (src : SrcNode) value', c.srcs[node.source]? = some src →
        documentPath E value' = some src.filename → positionOf value' = node.range.start →
        ∃ locations, handleFindReferences E c value' = some locations ∧
          c.locationOf ref ∈ locations

/-- A definition that is found goes with an edge. -/
theorem adj_of_findDefinition {E : Env} {c : AnalyzerCtx} {value : Option Json} {r d : SymId}
    (hr : findReference E c value = some r) (hd : findDefinition E c value = some d) :
    c.symGraph.Adj r d := by
  unfold findDefinition at hd
  rw [hr, Option.bind_some] at hd
  exact (c.symGraph.mem_outEdges r d).mp (List.mem_of_head? hd)

theorem consistent_of_shownAll {E : Env} {c : AnalyzerCtx} (hc : CtxWF E c) (h : ShownAll c) :
    Consistent E c := by
  intro value r d hr hd ref node href hnode src value' hsrc hpath hpos
  have hadj := adj_of_findDefinition hr hd
  have hmem : d ∈ referenced c := List.mem_map.mpr ⟨(r, d), hadj, rfl⟩
  -- the request finds `d` itself, since `d` is shown
  have hfound : src.definitions.find? (c.coversAt node.range.start) = some d := by
    have hshown := h d hmem
    unfold shown at hshown
    rw [hnode, Option.any_some, hsrc, Option.any_some] at hshown
    exact of_decide_eq_true hshown
  have hrequest : requestSource E c value' = some src := by
    unfold requestSource AnalyzerCtx.srcOf
    rw [hpath, Option.bind_some, (hc.named _ src hsrc).1, Option.bind_some, hsrc]
  refine ⟨(c.nodes (c.symGraph.inEdges d)).map c.locationOf, ?_, ?_⟩
  · unfold handleFindReferences
    rw [hrequest, Option.bind_some, hpos, hfound, Option.map_some]
  · refine List.mem_map_of_mem (mem_nodes_iff.mpr ⟨r, ?_, href⟩)
    exact (c.symGraph.mem_inEdges r d).mpr hadj

/-- Every definition that is referenced stays shown exactly when all steps keep it. -/
theorem always_shownAll_iff {E : Env} {ls : List Label}
    (hrun : (run (step E) Machine.init ls).isSome) :
    Always (step E) (fun m => MachineOK E m ∧ ShownAll m.analyzer.current) Machine.init ls ↔
      Meets (step E) (KeepsShown E) Machine.init ls :=
  always_iff_meets
    (fun _ _ _ hm h => (and_iff_right (step_ok hm.1 h)).trans (step_shownAll_iff hm.1 hm.2 h))
    ⟨machineOK_init E, fun _ hd => absurd hd List.not_mem_nil⟩ hrun

/-- In a run whose steps keep referenced definitions shown, definition and references requests
    are consistent in every state. -/
theorem definition_references_consistent {E : Env} {ls : List Label}
    (hrun : (run (step E) Machine.init ls).isSome)
    (hkeep : Meets (step E) (KeepsShown E) Machine.init ls) :
    Always (step E) (fun m => Consistent E m.analyzer.current) Machine.init ls :=
  fun pre hpre m hm =>
    have h := (always_shownAll_iff hrun).mpr hkeep pre hpre m hm
    consistent_of_shownAll h.1.current h.2

/-! ## A reference into a shared file -/

def request (uri : String) (line character : Int) : Option Json :=
  some (.obj [(ascii "textDocument", .obj [(ascii "uri", .str (ascii uri))]),
    (ascii "position", .obj [(ascii "line", .num line), (ascii "character", .num character)])])

def referringDocs : Docs :=
  (Table.empty.put (ascii "a") (ascii "~c foo")).put (ascii "b") (ascii "~c")

def sharedReference : AsmSym where
  type := .labelRef
  name := ascii "foo"
  name_cStr := cStr_foo
  nameIsGenerated := false
  id := 1
  region := ⟨⟨1, ascii "a"⟩, ⟨⟨1, 4, 3⟩, ⟨1, 7, 6⟩⟩⟩

/-- A pass over `a`, which includes `c` and refers to its label. -/
def referringPass : List Label :=
  [.enter, .event (.fopen referringDocs ⟨1, ascii "a"⟩ none),
    .event (.fopen referringDocs ⟨3, ascii "c"⟩ (some (ascii "@foo"))),
    .event (.putSymbol 256 sharedLabel []), .event (.putSymbol 256 sharedReference []),
    .asmDone true, .chessDone, .leave]

/-- A pass over `b`, which includes `c` too. -/
def includingPass : List Label :=
  [.enter, .event (.fopen referringDocs ⟨2, ascii "b"⟩ none),
    .event (.fopen referringDocs ⟨3, ascii "c"⟩ none), .event (.putSymbol 256 sharedLabel []),
    .asmDone true, .chessDone, .leave]

/-- Only `a` is open. -/
def loneReferringRun : List Label :=
  .start (Table.empty.put (ascii "a") (ascii "~c foo")) :: (referringPass ++ [.finish])

def referringRun : List Label :=
  .start referringDocs :: (referringPass ++ includingPass ++ [.finish])

theorem definition_references_lone :
    ∃ m, run (step asciiEnv) Machine.init loneReferringRun = some m ∧
      findReference asciiEnv m.analyzer.current (request "file:///w/a" 0 4) = some 1 ∧
      Consistent asciiEnv m.analyzer.current := by
  have hout : (run (step asciiEnv) Machine.init loneReferringRun).map (fun m =>
      findReference asciiEnv m.analyzer.current (request "file:///w/a" 0 4)) = some (some 1) := by
    decide
  obtain ⟨m, hm, hfind⟩ := Option.map_eq_some_iff.mp hout
  exact ⟨m, hm, hfind, definition_references_consistent (by rw [hm]; rfl) (by decide)
    loneReferringRun List.prefix_rfl m hm⟩

/-- The label of `c` is listed again by the pass over `b`, and a references request at it finds
    that second node, which nothing refers to. -/
theorem definition_references_fails :
    ∃ m, run (step asciiEnv) Machine.init referringRun = some m ∧ m.phase = .idle ∧
      handleFindReferences asciiEnv m.analyzer.current (request "file:///w/c" 0 0) = some [] ∧
      ¬ Consistent asciiEnv m.analyzer.current := by
  have hrequests : (run (step asciiEnv) Machine.init referringRun).map (fun m =>
      (decide (m.phase = .idle),
        findReference asciiEnv m.analyzer.current (request "file:///w/a" 0 4),
        findDefinition asciiEnv m.analyzer.current (request "file:///w/a" 0 4),
        handleFindReferences asciiEnv m.analyzer.current (request "file:///w/c" 0 0))) =
      some (true, some 1, some 0, some []) := by decide
  have hnodes : (run (step asciiEnv) Machine.init referringRun).map (fun m =>
      ((m.analyzer.current.syms[1]?).isSome,
        (m.analyzer.current.syms[0]?).map fun n => (n.source, n.range.start),
        (m.analyzer.current.srcs[2]?).map SrcNode.filename)) =
      some (true, some (2, ⟨0, 0⟩), some (ascii "c")) := by decide
  obtain ⟨m, hm, he⟩ := Option.map_eq_some_iff.mp hrequests
  rw [hm, Option.map_some] at hnodes
  simp only [Prod.mk.injEq, decide_eq_true_eq, Option.some.injEq] at he hnodes
  obtain ⟨hidle, hr, hd, hrefs⟩ := he
  obtain ⟨href, hdef, hsrc⟩ := hnodes
  refine ⟨m, hm, hidle, hrefs, fun hc => ?_⟩
  obtain ⟨ref, href⟩ := Option.isSome_iff_exists.mp href
  obtain ⟨node, hnode, he⟩ := Option.map_eq_some_iff.mp hdef
  obtain ⟨hsource, hstart⟩ := Prod.mk.injEq _ _ _ _ |>.mp he
  obtain ⟨src, hsrc, hname⟩ := Option.map_eq_some_iff.mp hsrc
  have hpath : documentPath asciiEnv (request "file:///w/c" 0 0) = some src.filename := by
    rw [hname]
    decide
  have hposition : positionOf (request "file:///w/c" 0 0) = node.range.start := by
    rw [hstart]
    decide
  obtain ⟨locations, hlocations, hmem⟩ :=
    hc _ 1 0 hr hd ref node href hnode src _ (by rw [hsource]; exact hsrc) hpath hposition
  rw [hrefs] at hlocations
  cases hlocations
  exact absurd hmem List.not_mem_nil

end BuxnLs.Analysis
