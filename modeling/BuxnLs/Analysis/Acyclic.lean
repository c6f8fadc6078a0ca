/-
  The file graph has no cycle. An edge is only added from the entry of the pass in progress to a
  node that is marked analyzed just before, and an entry is a node that was not analyzed when
  its pass began, so no edge ever enters it (`acyclic_addEdge`). The recursions over the graph
  then return on the fuel that the number of edges bounds.
-/
import BuxnLs.Analysis.Invariant
import BuxnLs.Model.AsciiEnv
import BuxnLs.Model.Completion

namespace BuxnLs.Analysis

open BuxnLs.Lib BuxnLs.Model Relation

/-- The file graph is acyclic and its edges end at nodes that are marked analyzed. -/
structure GraphOK (c : AnalyzerCtx) : Prop where
  acyclic : c.srcGraph.Acyclic
  analyzed : ∀ x y, c.srcGraph.Adj x y →
    ∃ src : SrcNode, c.srcs[y]? = some src ∧ src.analyzed = true

def NoEdgeInto (c : AnalyzerCtx) (entry : SrcId) : Prop := ∀ x, ¬ c.srcGraph.Adj x entry

theorem graphOK_of_empty {c : AnalyzerCtx} (h : c.srcGraph = .empty) : GraphOK c where
  acyclic := h ▸ Lib.Digraph.acyclic_empty
  analyzed := fun x y hxy => absurd (h ▸ hxy) (Lib.Digraph.not_adj_empty x y)

/-- No edge enters a node that is not analyzed. -/
theorem GraphOK.noEdgeInto {c : AnalyzerCtx} (h : GraphOK c) {id : SrcId}
    (hid : ∀ src : SrcNode, c.srcs[id]? = some src → src.analyzed = false) : NoEdgeInto c id := by
  intro x hx
  obtain ⟨src, hs, ha⟩ := h.analyzed x id hx
  rw [hid src hs] at ha
  cases ha

/-- A change that keeps the edges and unmarks no node. -/
theorem GraphOK.mono {c c' : AnalyzerCtx} (h : GraphOK c) (hg : c'.srcGraph = c.srcGraph)
    (hs : ∀ (id : SrcId) (src : SrcNode), c.srcs[id]? = some src → src.analyzed = true →
      ∃ src' : SrcNode, c'.srcs[id]? = some src' ∧ src'.analyzed = true) : GraphOK c' where
  acyclic := hg ▸ h.acyclic
  analyzed := by
    intro x y hxy
    obtain ⟨src, hy, ha⟩ := h.analyzed x y (hg ▸ hxy)
    exact hs y src hy ha

theorem modify_keeps_analyzed (c : AnalyzerCtx) (node : SrcId) {f : SrcNode → SrcNode}
    (hf : ∀ src : SrcNode, src.analyzed = true → (f src).analyzed = true) (id : SrcId)
    (src : SrcNode) (hs : c.srcs[id]? = some src) (ha : src.analyzed = true) :
    ∃ src' : SrcNode, (c.srcs.modify node f)[id]? = some src' ∧ src'.analyzed = true := by
  refine ⟨_, (getElem?_modify_iff _ _ _ _ _).mpr ⟨src, hs, rfl⟩, ?_⟩
  split
  · exact hf src ha
  · exact ha

theorem openSource_graphOK {c : AnalyzerCtx} {entry node : SrcId} (h : GraphOK c)
    (hin : NoEdgeInto c entry) (hn : node < c.srcs.length) :
    GraphOK (openSource c entry node) ∧ NoEdgeInto (openSource c entry node) entry := by
  have hmark : GraphOK (markAnalyzed c node) :=
    h.mono rfl (modify_keeps_analyzed c node fun _ _ => rfl)
  unfold openSource
  split
  · rename_i hne
    refine ⟨⟨Lib.Digraph.acyclic_addEdge h.acyclic hin (Ne.symm hne), fun x y hxy => ?_⟩,
      fun x hx => ?_⟩
    · rcases (Lib.Digraph.adj_addEdge _ _ _ _ _).mp hxy with ⟨-, rfl⟩ | hxy
      · refine ⟨{ c.srcs[y] with analyzed := true }, ?_, rfl⟩
        exact (getElem?_modify_iff _ _ _ _ _).mpr
          ⟨c.srcs[y], List.getElem?_eq_getElem hn, by rw [if_pos rfl]⟩
      · exact hmark.analyzed x y hxy
    · rcases (Lib.Digraph.adj_addEdge _ _ _ _ _).mp hx with ⟨-, he⟩ | hx
      · exact hne he.symm
      · exact hin x hx
  · exact ⟨hmark, hin⟩

/-- One change in the pass of an entry that no edge enters. -/
theorem CtxStep.graphOK {E : Env} {entry : SrcId} {c c' : AnalyzerCtx}
    (h : CtxStep E entry c c') (hw : CtxWF E c) (hc : GraphOK c ∧ NoEdgeInto c entry) :
    GraphOK c' ∧ NoEdgeInto c' entry := by
  obtain ⟨hg, hin⟩ := hc
  cases h with
  | addSource _ =>
      exact ⟨hg.mono rfl fun id src hs ha => ⟨src, getElem?_alloc_old hs, ha⟩, hin⟩
  | openSource hf => exact openSource_graphOK hg hin (hw.source_lt hf)
  | definition _ => exact ⟨hg.mono rfl (modify_keeps_analyzed c _ fun _ ha => ha), hin⟩
  | reference _ _ => exact ⟨hg.mono rfl (modify_keeps_analyzed c _ fun _ ha => ha), hin⟩
  | annotate _ _ _ => exact ⟨hg.mono rfl fun id src hs ha => ⟨src, hs, ha⟩, hin⟩

theorem CtxSteps.graphOK {E : Env} {entry : SrcId} {c c' : AnalyzerCtx}
    (h : CtxSteps E entry c c') (hw : CtxWF E c) (hg : GraphOK c) (hin : NoEdgeInto c entry) :
    GraphOK c' ∧ NoEdgeInto c' entry :=
  (CtxSteps.inv (P := fun x => CtxWF E x ∧ GraphOK x ∧ NoEdgeInto x entry)
    (fun _ _ hx hs => ⟨hs.wf hx.1, hs.graphOK hx.1 hx.2⟩) ⟨hw, hg, hin⟩ h).2

structure MachineGraphOK (m : Machine) : Prop where
  current : GraphOK m.analyzer.current
  previous : GraphOK m.analyzer.previous
  entry : ∀ ctx, m.phase.passCtx = some ctx → NoEdgeInto m.analyzer.current ctx.entryNode

theorem machineGraphOK_init : MachineGraphOK Machine.init where
  current := graphOK_of_empty rfl
  previous := graphOK_of_empty rfl
  entry := fun ctx h => by cases h

theorem noEdgeInto_of_isAnalyzed {a : Analyzer} {node : SrcId} (h : GraphOK a.current)
    (ha : a.isAnalyzed node = false) : NoEdgeInto a.current node := by
  refine h.noEdgeInto fun src hs => ?_
  unfold Analyzer.isAnalyzed at ha
  rw [hs] at ha
  exact ha

theorem step_graphOK {E : Env} {m m' : Machine} {l : Label} (hm : MachineOK E m)
    (hg : MachineGraphOK m) (h : step E m l = some m') : MachineGraphOK m' := by
  cases step_cases h with
  | start _ ha =>
      obtain ⟨hb, -⟩ := analyzeBegin_begun ha
      exact ⟨graphOK_of_empty hb.srcGraph, (congrArg GraphOK hb.previous).mpr hg.current,
        fun ctx h => by cases h⟩
  | skip _ _ _ => exact ⟨hg.current, hg.previous, fun ctx h => by cases h⟩
  | enter _ _ ha =>
      refine ⟨hg.current, hg.previous, fun ctx h => ?_⟩
      cases h
      exact noEdgeInto_of_isAnalyzed hg.current ha
  | event hctx hev =>
      have hp := applyEvent_effect (hm.pass hctx) hev
      obtain ⟨hcur, hin⟩ := hp.effect.steps.graphOK hm.current hg.current (hg.entry _ hctx)
      refine ⟨hcur, (congrArg GraphOK hp.effect.previous).mpr hg.previous, fun ctx hc => ?_⟩
      rw [inPass_withCtx hctx] at hc
      cases hc
      rw [hp.entry]
      exact hin
  | asmDone hp _ _ =>
      refine ⟨hg.current, hg.previous, fun ctx h => ?_⟩
      cases h
      exact hg.entry _ (hp ▸ rfl)
  | asmEnded _ _ => exact ⟨hg.current, hg.previous, fun ctx h => by cases h⟩
  | chessDone _ => exact ⟨hg.current, hg.previous, fun ctx h => by cases h⟩
  | leave hp ha =>
      -- nothing is opened after the assembler, so any node without incoming edges will do
      have he := leavePass_effect m.analyzer.current.srcs.length hm.current
        (hm.listed (hp ▸ trivial)) ha
      have hin : NoEdgeInto m.analyzer.current m.analyzer.current.srcs.length :=
        hg.current.noEdgeInto fun src hs => absurd (lt_length_of_getElem? hs) (Nat.lt_irrefl _)
      obtain ⟨hcur, -⟩ := he.steps.graphOK hm.current hg.current hin
      exact ⟨hcur, (congrArg GraphOK he.previous).mpr hg.previous, fun ctx h => by cases h⟩
  | finish _ _ => exact ⟨hg.current, hg.previous, fun ctx h => by cases h⟩

theorem reachable_graphOK {E : Env} {m : Machine} (h : Reachable (step E) Machine.init m) :
    MachineGraphOK m := by
  refine (h.inv (P := fun m => MachineOK E m ∧ MachineGraphOK m)
    ⟨machineOK_init E, machineGraphOK_init⟩ fun s l t hs hst => ?_).2
  exact ⟨step_ok hs.1 hst, step_graphOK hs.1 hs.2 hst⟩

/-! ## The recursions return -/

theorem maybeQueueNode_isSome (E : Env) (docs : Docs) {g : Lib.Digraph SrcId} (hg : g.Acyclic)
    (a : Analyzer) (node : SrcId) :
    (maybeQueueNode E docs g (g.edges.length + 1) a node).isSome :=
  descend_isSome hg _ (Nat.lt_succ_self _) a node

theorem queueFromRoot_isSome (E : Env) (docs : Docs) {g : Lib.Digraph SrcId} (hg : g.Acyclic)
    (a : Analyzer) (node : SrcId) :
    (queueFromRoot E docs g (g.edges.length + 1) a node).isSome :=
  climb_isSome hg (maybeQueueNode_isSome E docs hg) (Nat.lt_succ_self _) a node

theorem visitSymbols_isSome {c : AnalyzerCtx} (hg : c.srcGraph.Acyclic) (visit : SymVisit)
    (map : CompletionMap) (id : SrcId) :
    (visitSymbols c visit (c.srcGraph.edges.length + 1) map id).isSome :=
  descend_isSome hg _ (Nat.lt_succ_self _) map id

theorem visitSymbolsFromRoot_isSome {c : AnalyzerCtx} (hg : c.srcGraph.Acyclic)
    (visit : SymVisit) (map : CompletionMap) (id : SrcId) :
    (visitSymbolsFromRoot c visit (c.srcGraph.edges.length + 1) map id).isSome :=
  climb_isSome hg (visitSymbols_isSome hg visit) (Nat.lt_succ_self _) map id

theorem queueDoc_isSome (E : Env) (docs : Docs) {a : Analyzer}
    (hg : a.previous.srcGraph.Acyclic) (filename : Str) : (queueDoc E docs a filename).isSome := by
  unfold queueDoc
  split
  · rfl
  · split
    · exact queueFromRoot_isSome E docs hg a _
    · rfl

/-- The queue-building loop of `buxn_ls_analyze` returns when the old graph is acyclic. -/
theorem analyzeBegin_isSome (E : Env) (docs : Docs) {a : Analyzer}
    (hg : a.current.srcGraph.Acyclic) : (analyzeBegin E docs a).isSome := by
  unfold analyzeBegin
  rw [Option.isSome_map]
  have hloop : ∀ (files : List Str) (b : Analyzer), Begun E a.current b →
      (files.foldlM (queueDoc E docs) b).isSome := by
    intro files
    induction files with
    | nil => exact fun b _ => rfl
    | cons f files ih =>
        intro b hb
        obtain ⟨b', hb'⟩ := Option.isSome_iff_exists.mp
          (queueDoc_isSome E docs (hb.previous ▸ hg) f)
        rw [List.foldlM_cons, hb']
        exact ih b' (queueDoc_begun hb hb')
  exact hloop _ _ (swapCtx_begun E a)

/-- In every reachable state, mid-run too, the file graphs of both contexts are acyclic, and the
    recursions over them return: the two that build the queue, which run on the graph of the
    previous context, the two of the completion, and with them the start of an analysis. -/
theorem file_graph_acyclic (E : Env) {m : Machine} (h : Reachable (step E) Machine.init m) :
    (m.analyzer.current.srcGraph.Acyclic ∧ m.analyzer.previous.srcGraph.Acyclic) ∧
    (∀ c, c = m.analyzer.current ∨ c = m.analyzer.previous →
      (∀ docs a node,
        (maybeQueueNode E docs c.srcGraph (c.srcGraph.edges.length + 1) a node).isSome)
      ∧ (∀ docs a node,
        (queueFromRoot E docs c.srcGraph (c.srcGraph.edges.length + 1) a node).isSome)
      ∧ (∀ visit map id, (visitSymbols c visit (c.srcGraph.edges.length + 1) map id).isSome)
      ∧ (∀ visit map id,
        (visitSymbolsFromRoot c visit (c.srcGraph.edges.length + 1) map id).isSome)) ∧
    (m.phase = .idle → ∀ docs, (step E m (.start docs)).isSome) := by
  have hg := reachable_graphOK h
  refine ⟨⟨hg.current.acyclic, hg.previous.acyclic⟩, fun c hc => ?_, fun hp docs => ?_⟩
  · have hac : c.srcGraph.Acyclic := by
      rcases hc with rfl | rfl
      · exact hg.current.acyclic
      · exact hg.previous.acyclic
    exact ⟨fun docs a node => maybeQueueNode_isSome E docs hac a node,
      fun docs a node => queueFromRoot_isSome E docs hac a node,
      fun visit map id => visitSymbols_isSome hac visit map id,
      fun visit map id => visitSymbolsFromRoot_isSome hac visit map id⟩
  · simp only [step, hp, Option.isSome_map]
    exact analyzeBegin_isSome E docs hg.current.acyclic

/-! ## Two files that include each other -/

def fileA : CStr := ⟨1, ascii "a"⟩

def fileB : CStr := ⟨2, ascii "b"⟩

/-- `a` and `b` are open and include each other; the assembler has opened both of them and
    reads `a` once more. -/
def mutualDocs : Docs := (Table.empty.put fileA.chars (ascii "~b")).put fileB.chars (ascii "~a")

def mutualRun : List Label :=
  [.start mutualDocs, .enter, .event (.fopen mutualDocs fileA none),
    .event (.fopen mutualDocs fileB none), .event (.fopen mutualDocs fileA none)]

theorem file_graph_acyclic_mutual :
    ∃ m, run (step asciiEnv) Machine.init mutualRun = some m ∧
      m.analyzer.current.srcGraph.edges = [(0, 1)] ∧ m.analyzer.current.srcGraph.Acyclic := by
  have hsome : (run (step asciiEnv) Machine.init mutualRun).isSome = true := by decide
  obtain ⟨m, hm⟩ := Option.isSome_iff_exists.mp hsome
  have hedges : (run (step asciiEnv) Machine.init mutualRun).map
      (fun m => m.analyzer.current.srcGraph.edges) = some [(0, 1)] := by decide
  rw [hm] at hedges
  exact ⟨m, hm, Option.some.inj hedges, (file_graph_acyclic asciiEnv ⟨mutualRun, hm⟩).1.1⟩

end BuxnLs.Analysis
