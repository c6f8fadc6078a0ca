/-
  The queue of an analysis. `Queued` describes the state while the queue is built: the nodes of
  the new context are the queue, each stored under its name, and all of them are open documents.
  Read as nodes of the previous run, the queue is a walk of `Lib/Preorder.lean` over its graph
  (`queueDocs_view`), so every open document is scheduled once (`analyzeBegin_scheduled`); which
  of two documents comes first is decided by the path on which the walk first meets the second
  (`includer_first_iff`).
-/
import BuxnLs.Analysis.Acyclic
import BuxnLs.Analysis.Queries
import BuxnLs.Lib.Preorder

namespace BuxnLs.Analysis

open BuxnLs.Lib BuxnLs.Model Relation

/-! ## Edges join nodes -/

/-- The edges of the file graph leave nodes that exist. -/
def EdgesPlaced (c : AnalyzerCtx) : Prop := ∀ x y, c.srcGraph.Adj x y → x < c.srcs.length

theorem CtxStep.edgesPlaced {E : Env} {entry : SrcId} {c c' : AnalyzerCtx}
    (h : CtxStep E entry c c') (hc : EdgesPlaced c ∧ entry < c.srcs.length) :
    EdgesPlaced c' ∧ entry < c'.srcs.length := by
  have hlen := srcs_length_le_of_step h
  have hentry : entry < c'.srcs.length := Nat.lt_of_lt_of_le hc.2 hlen
  have hold : ∀ x y, c.srcGraph.Adj x y → x < c'.srcs.length :=
    fun x y hxy => Nat.lt_of_lt_of_le (hc.1 x y hxy) hlen
  refine ⟨fun x y hxy => ?_, hentry⟩
  cases h with
  | addSource _ => exact hold x y hxy
  | openSource _ =>
      unfold Analysis.openSource at hxy
      split at hxy
      · rcases (Lib.Digraph.adj_addEdge _ _ _ _ _).mp hxy with ⟨rfl, -⟩ | hxy
        · exact hentry
        · exact hold x y hxy
      · exact hold x y hxy
  | definition _ => exact hold x y hxy
  | reference _ _ => exact hold x y hxy
  | annotate _ _ _ => exact hold x y hxy

theorem CtxSteps.edgesPlaced {E : Env} {entry : SrcId} {c c' : AnalyzerCtx}
    (h : CtxSteps E entry c c') (hc : EdgesPlaced c) (he : entry < c.srcs.length) :
    EdgesPlaced c' ∧ entry < c'.srcs.length :=
  CtxSteps.inv (P := fun x => EdgesPlaced x ∧ entry < x.srcs.length)
    (fun _ _ hx hs => hs.edgesPlaced hx) ⟨hc, he⟩ h

structure EdgesOK (m : Machine) : Prop where
  current : EdgesPlaced m.analyzer.current
  entry : ∀ ctx, m.phase.passCtx = some ctx → ctx.entryNode < m.analyzer.current.srcs.length

theorem edgesPlaced_of_empty {c : AnalyzerCtx} (h : c.srcGraph = .empty) : EdgesPlaced c :=
  fun x y hxy => absurd (h ▸ hxy) (Lib.Digraph.not_adj_empty x y)

/-- What follows a pass adds no edge. -/
theorem leavePass_srcGraph {E : Env} {a a' : Analyzer} (h : leavePass E a = some a') :
    a'.current.srcGraph = a.current.srcGraph := by
  refine foldlM_inv (P := fun b => b.current.srcGraph = a.current.srcGraph)
    (fun b b' sym _ hb hs => ?_) (carryForward_carries a).srcGraph h
  obtain ⟨-, rfl⟩ | ⟨d, b₁, node, -, hm, rfl⟩ := connectReference_cases hs
  · exact hb
  · obtain ⟨hl, -⟩ := makeSymNode_spec hm
    exact (congrArg AnalyzerCtx.srcGraph hl.current).trans hb

theorem step_edgesOK {E : Env} {m m' : Machine} {l : Label} (hm : MachineOK E m)
    (hg : EdgesOK m) (h : step E m l = some m') : EdgesOK m' := by
  cases step_cases h with
  | start _ ha =>
      obtain ⟨hb, -⟩ := analyzeBegin_begun ha
      exact ⟨edgesPlaced_of_empty hb.srcGraph, fun ctx h => by cases h⟩
  | skip _ _ _ => exact ⟨hg.current, fun ctx h => by cases h⟩
  | enter _ hq _ =>
      refine ⟨hg.current, fun ctx h => ?_⟩
      cases h
      exact hm.queue _ (List.mem_of_getElem? hq)
  | event hctx hev =>
      have hp := applyEvent_effect (hm.pass hctx) hev
      obtain ⟨hcur, hin⟩ := hp.effect.steps.edgesPlaced hg.current (hg.entry _ hctx)
      refine ⟨hcur, fun ctx hc => ?_⟩
      rw [inPass_withCtx hctx] at hc
      cases hc
      rw [hp.entry]
      exact hin
  | asmDone hp _ _ =>
      refine ⟨hg.current, fun ctx h => ?_⟩
      cases h
      exact hg.entry _ (hp ▸ rfl)
  | asmEnded _ _ => exact ⟨hg.current, fun ctx h => by cases h⟩
  | chessDone _ => exact ⟨hg.current, fun ctx h => by cases h⟩
  | leave hp ha =>
      have he := leavePass_effect 0 hm.current (hm.listed (hp ▸ trivial)) ha
      refine ⟨fun x y hxy => ?_, fun ctx h => by cases h⟩
      rw [leavePass_srcGraph ha] at hxy
      exact Nat.lt_of_lt_of_le (hg.current x y hxy) he.steps.srcs_length_le
  | finish _ _ => exact ⟨hg.current, fun ctx h => by cases h⟩

theorem reachable_edgesOK {E : Env} {m : Machine} (h : Reachable (step E) Machine.init m) :
    EdgesOK m := by
  have hinit : EdgesOK Machine.init := ⟨edgesPlaced_of_empty rfl, fun ctx h => by cases h⟩
  refine (h.inv (P := fun m => MachineOK E m ∧ EdgesOK m) ⟨machineOK_init E, hinit⟩
    fun s l t hs hst => ?_).2
  exact ⟨step_ok hs.1 hst, step_edgesOK hs.1 hs.2 hst⟩

/-! ## While the queue is built -/

/-- The filenames in `analyze_queue`, in order. -/
def queuedNames (a : Analyzer) : List Str :=
  a.analyzeQueue.filterMap fun id => (a.current.srcs[id]?).map SrcNode.filename

/-- The queue is the nodes of the new context, in order, all of open documents. -/
structure Queued (E : Env) (docs : Docs) (prev : AnalyzerCtx) (a : Analyzer) : Prop where
  begun : Begun E prev a
  queue : a.analyzeQueue = List.range a.current.srcs.length
  names : a.current.sources.keys = queuedNames a
  opened : ∀ f ∈ queuedNames a, (docs.find? f).isSome

theorem queuedNames_doQueueFile {E : Env} {a : Analyzer} {filename : Str}
    (h : ∀ id ∈ a.analyzeQueue, id < a.current.srcs.length) :
    queuedNames (doQueueFile E a filename) = queuedNames a ++ [filename] := by
  have hold : ∀ id ∈ a.analyzeQueue, ((doQueueFile E a filename).current.srcs[id]?).map
      SrcNode.filename = (a.current.srcs[id]?).map SrcNode.filename := by
    intro id hid
    have hlt := h id hid
    simp only [doQueueFile, allocNode]
    rw [List.getElem?_append_left hlt]
  have hnew : ((doQueueFile E a filename).current.srcs[a.current.srcs.length]?).map
      SrcNode.filename = some filename := by
    simp [doQueueFile, allocNode]
  have hqueue : (doQueueFile E a filename).analyzeQueue =
      a.analyzeQueue ++ [a.current.srcs.length] := rfl
  unfold queuedNames
  rw [hqueue, List.filterMap_append, List.filterMap_congr hold, List.filterMap_cons, hnew]
  rfl

theorem queued_swapCtx (E : Env) (docs : Docs) (a : Analyzer) :
    Queued E docs a.current (swapCtx a) where
  begun := swapCtx_begun E a
  queue := rfl
  names := rfl
  opened := fun _ hf => absurd hf List.not_mem_nil

theorem Queued.nodup {E : Env} {docs : Docs} {prev : AnalyzerCtx} {a : Analyzer}
    (h : Queued E docs prev a) : (queuedNames a).Nodup := by
  rw [← h.names]
  exact a.current.sources.nodup

theorem Queued.mem_iff {E : Env} {docs : Docs} {prev : AnalyzerCtx} {a : Analyzer}
    (h : Queued E docs prev a) (f : Str) :
    f ∈ queuedNames a ↔ (a.current.sources.find? f).isSome := by
  rw [← h.names, Table.mem_keys_iff]

theorem Queued.doQueueFile {E : Env} {docs : Docs} {prev : AnalyzerCtx} {a : Analyzer}
    (h : Queued E docs prev a) {filename : Str} (hf : a.current.sources.find? filename = none)
    (hopen : (docs.find? filename).isSome) : Queued E docs prev (doQueueFile E a filename) where
  begun := doQueueFile_begun h.begun hf
  queue := by
    have hlen : (Model.doQueueFile E a filename).current.srcs.length =
        a.current.srcs.length + 1 := by simp [Model.doQueueFile, allocNode]
    rw [hlen, List.range_succ, ← h.queue]
    rfl
  names := by
    have hnew : filename ∉ a.current.sources.keys :=
      (Table.find?_eq_none_iff _ _).mp hf
    rw [queuedNames_doQueueFile h.begun.queue, ← h.names]
    exact (Table.keys_put _ _ _).trans (by rw [if_neg hnew])
  opened := by
    intro f hm
    rw [queuedNames_doQueueFile h.begun.queue, List.mem_append, List.mem_singleton] at hm
    rcases hm with hm | rfl
    · exact h.opened f hm
    · exact hopen

/-! ## The queue as a walk over the previous graph -/

/-- The document of a node of the previous run is open. -/
def isOpenNode (c : AnalyzerCtx) (docs : Docs) (v : SrcId) : Bool :=
  (c.srcs[v]?).any fun src => (docs.find? src.filename).isSome

/-- The nodes that a context has for files. -/
def nodesNamed (c : AnalyzerCtx) (files : List Str) : List SrcId :=
  files.filterMap c.sources.find?

/-- The queue, as nodes of the previous run. -/
def queuedNodes (prev : AnalyzerCtx) (a : Analyzer) : List SrcId :=
  nodesNamed prev (queuedNames a)

theorem isOpenNode_of_srcs {c : AnalyzerCtx} {docs : Docs} {v : SrcId} {src : SrcNode}
    (h : c.srcs[v]? = some src) : isOpenNode c docs v = (docs.find? src.filename).isSome := by
  unfold isOpenNode
  rw [h]
  rfl

theorem CtxWF.find?_iff {E : Env} {c : AnalyzerCtx} (h : CtxWF E c) {v : SrcId} {src : SrcNode}
    (hv : c.srcs[v]? = some src) (f : Str) : c.sources.find? f = some v ↔ f = src.filename := by
  constructor
  · intro hf
    obtain ⟨src', hs, hname⟩ := h.sources f v hf
    obtain rfl : src = src' := Option.some.inj (hv.symm.trans hs)
    exact hname.symm
  · rintro rfl
    exact (h.named v src hv).1

theorem mem_nodesNamed {E : Env} {c : AnalyzerCtx} (h : CtxWF E c) {v : SrcId} {src : SrcNode}
    (hv : c.srcs[v]? = some src) (files : List Str) :
    v ∈ nodesNamed c files ↔ src.filename ∈ files := by
  unfold nodesNamed
  rw [List.mem_filterMap]
  constructor
  · rintro ⟨f, hf, hfind⟩
    exact (h.find?_iff hv f).mp hfind ▸ hf
  · intro hf
    exact ⟨src.filename, hf, (h.named v src hv).1⟩

section Walk

variable {E : Env} {docs : Docs} {prev : AnalyzerCtx}

theorem queuedNodes_doQueueFile {a : Analyzer} {filename : Str}
    (h : ∀ id ∈ a.analyzeQueue, id < a.current.srcs.length) :
    queuedNodes prev (doQueueFile E a filename) =
      queuedNodes prev a ++ nodesNamed prev [filename] := by
  unfold queuedNodes nodesNamed
  rw [queuedNames_doQueueFile h, List.filterMap_append]

theorem queuedNames_subset_doQueueFile {a : Analyzer} (ha : Queued E docs prev a)
    (filename : Str) : queuedNames a ⊆ queuedNames (doQueueFile E a filename) := by
  rw [queuedNames_doQueueFile ha.begun.queue]
  exact List.subset_append_left _ _

theorem visitQueueNode_queued {a : Analyzer} (ha : Queued E docs prev a) (v : SrcId) :
    Queued E docs prev (visitQueueNode E docs a v).1 ∧
      queuedNames a ⊆ queuedNames (visitQueueNode E docs a v).1 := by
  unfold visitQueueNode
  split
  · exact ⟨ha, List.Subset.refl _⟩
  · split
    · exact ⟨ha, List.Subset.refl _⟩
    · rename_i hnone
      split
      · rename_i hopen
        exact ⟨ha.doQueueFile (by simpa using hnone) hopen, queuedNames_subset_doQueueFile ha _⟩
      · exact ⟨ha, List.Subset.refl _⟩

/-- The queue only grows. -/
theorem queueDoc_queued {a a' : Analyzer} (ha : Queued E docs prev a) {f : Str}
    (hopen : (docs.find? f).isSome) (h : queueDoc E docs a f = some a') :
    Queued E docs prev a' ∧ queuedNames a ⊆ queuedNames a' := by
  unfold queueDoc at h
  split at h
  · obtain rfl := Option.some.inj h
    exact ⟨ha, List.Subset.refl _⟩
  · rename_i hnone
    split at h
    · have hvisit : ∀ (b : Analyzer) (v : SrcId),
          Queued E docs prev b ∧ queuedNames a ⊆ queuedNames b →
          Queued E docs prev (visitQueueNode E docs b v).1 ∧
            queuedNames a ⊆ queuedNames (visitQueueNode E docs b v).1 := by
        intro b v hb
        obtain ⟨hq, hsub⟩ := visitQueueNode_queued hb.1 v
        exact ⟨hq, List.Subset.trans hb.2 hsub⟩
      refine climb_inv (P := fun b => Queued E docs prev b ∧ queuedNames a ⊆ queuedNames b)
        (fun s s' v hs hl => ?_) ⟨ha, List.Subset.refl _⟩ h
      exact descend_inv (P := fun b => Queued E docs prev b ∧ queuedNames a ⊆ queuedNames b)
        hvisit hs hl
    · obtain rfl := Option.some.inj h
      exact ⟨ha.doQueueFile (by simpa using hnone) hopen, queuedNames_subset_doQueueFile ha f⟩

/-- Visiting a node is emitting it. -/
theorem visitQueueNode_view (hprev : CtxWF E prev) {a : Analyzer} (ha : Queued E docs prev a)
    {v : SrcId} {src : SrcNode} (hv : prev.srcs[v]? = some src) :
    emit (isOpenNode prev docs) (queuedNodes prev a) v =
      (queuedNodes prev (visitQueueNode E docs a v).1, (visitQueueNode E docs a v).2) := by
  have hmem : v ∈ queuedNodes prev a ↔ (a.current.sources.find? src.filename).isSome :=
    (mem_nodesNamed hprev hv _).trans (ha.mem_iff _)
  unfold visitQueueNode emit
  rw [ha.begun.previous, hv, isOpenNode_of_srcs hv]
  dsimp only
  by_cases hq : (a.current.sources.find? src.filename).isSome = true
  · rw [if_pos hq, if_pos (hmem.mpr hq)]
  · rw [if_neg hq, if_neg fun hm => hq (hmem.mp hm)]
    by_cases hopen : (docs.find? src.filename).isSome = true
    · rw [if_pos hopen, if_pos hopen, queuedNodes_doQueueFile ha.begun.queue]
      simp only [nodesNamed, List.filterMap_cons, (hprev.named v src hv).1, List.filterMap_nil]
    · rw [if_neg hopen, if_neg hopen]

/-- What the recursions need of the previous context: its edges join nodes. -/
structure Walkable (E : Env) (c : AnalyzerCtx) : Prop where
  wf : CtxWF E c
  graph : GraphOK c
  placed : EdgesPlaced c

def IsNode (c : AnalyzerCtx) (v : SrcId) : Prop := ∃ src : SrcNode, c.srcs[v]? = some src

theorem queueFromRoot_view (hprev : Walkable E prev) {fuel : Nat} {a a' : Analyzer}
    (ha : Queued E docs prev a) {v : SrcId} (hv : IsNode prev v)
    (h : queueFromRoot E docs prev.srcGraph fuel a v = some a') :
    Queued E docs prev a' ∧
      climb prev.srcGraph.inEdges (walk (isOpenNode prev docs) prev.srcGraph fuel) fuel
        (queuedNodes prev a) v = some (queuedNodes prev a') := by
  have hdown : ∀ v, IsNode prev v → ∀ w ∈ prev.srcGraph.outEdges v, IsNode prev w := by
    intro v _ w hw
    obtain ⟨src, hs, -⟩ := hprev.graph.analyzed v w ((prev.srcGraph.mem_outEdges v w).mp hw)
    exact ⟨src, hs⟩
  have hup : ∀ v, IsNode prev v → ∀ w ∈ prev.srcGraph.inEdges v, IsNode prev w := by
    intro v _ w hw
    have hlt := hprev.placed w v ((prev.srcGraph.mem_inEdges w v).mp hw)
    exact ⟨_, List.getElem?_eq_getElem hlt⟩
  have hvisit : ∀ b w, IsNode prev w → Queued E docs prev b →
      emit (isOpenNode prev docs) (queuedNodes prev b) w =
        (queuedNodes prev (visitQueueNode E docs b w).1, (visitQueueNode E docs b w).2) := by
    intro b w hw hb
    obtain ⟨src, hw⟩ := hw
    exact visitQueueNode_view hprev.wf hb hw
  obtain ⟨hview, hqueued⟩ := climb_view (P := Queued E docs prev) (V := IsNode prev) hup
    (fun b w hw hb => descend_view (P := Queued E docs prev) (V := IsNode prev) hdown
      (fun s x _ hs => (visitQueueNode_queued hs x).1) hvisit fuel hw hb) fuel hv ha
  refine ⟨hqueued a' h, hview.symm.trans ?_⟩
  exact congrArg (Option.map (queuedNodes prev)) h

/-- One document: scheduled from its node of the previous run, or queued when it has none. -/
theorem queueDoc_view (hprev : Walkable E prev) {a a' : Analyzer} (ha : Queued E docs prev a)
    {f : Str} (hopen : (docs.find? f).isSome) (h : queueDoc E docs a f = some a') :
    Queued E docs prev a' ∧ (prev.sources.find? f = none → f ∈ queuedNames a') ∧
      (nodesNamed prev [f]).foldlM (scheduleFrom (isOpenNode prev docs) prev.srcGraph
        (prev.srcGraph.edges.length + 1)) (queuedNodes prev a) = some (queuedNodes prev a') := by
  unfold queueDoc at h
  rw [ha.begun.previous] at h
  cases hf : prev.sources.find? f with
  | none =>
      have hnodes : nodesNamed prev [f] = [] := by simp [nodesNamed, hf]
      rw [hf] at h
      rw [hnodes, List.foldlM_nil]
      split at h
      · rename_i hin
        obtain rfl := Option.some.inj h
        exact ⟨ha, fun _ => (ha.mem_iff f).mpr hin, rfl⟩
      · rename_i hout
        obtain rfl := Option.some.inj h
        refine ⟨ha.doQueueFile (by simpa using hout) hopen, fun _ => ?_, ?_⟩
        · rw [queuedNames_doQueueFile ha.begun.queue]
          exact List.mem_append_right _ (List.mem_singleton_self f)
        · rw [queuedNodes_doQueueFile ha.begun.queue, hnodes, List.append_nil]
          rfl
  | some v =>
      have hnodes : nodesNamed prev [f] = [v] := by simp [nodesNamed, hf]
      obtain ⟨src, hv, hname⟩ := hprev.wf.sources f v hf
      have hmem : v ∈ queuedNodes prev a ↔ (a.current.sources.find? f).isSome :=
        (mem_nodesNamed hprev.wf hv _).trans (hname ▸ ha.mem_iff _)
      rw [hf] at h
      rw [hnodes, List.foldlM_cons]
      unfold scheduleFrom
      split at h
      · rename_i hin
        obtain rfl := Option.some.inj h
        rw [if_pos (hmem.mpr hin)]
        exact ⟨ha, fun hn => (by cases hn), rfl⟩
      · rename_i hout
        rw [if_neg fun hm => hout (hmem.mp hm)]
        obtain ⟨hq, hview⟩ := queueFromRoot_view hprev ha ⟨src, hv⟩ h
        rw [hview]
        exact ⟨hq, fun hn => (by cases hn), rfl⟩

theorem queueDocs_view (hprev : Walkable E prev) (files : List Str)
    (hopen : ∀ f ∈ files, (docs.find? f).isSome) {a a' : Analyzer} (ha : Queued E docs prev a)
    (h : files.foldlM (queueDoc E docs) a = some a') :
    Queued E docs prev a' ∧
      (∀ f ∈ files, prev.sources.find? f = none → f ∈ queuedNames a') ∧
      queuedNames a ⊆ queuedNames a' ∧
      (nodesNamed prev files).foldlM (scheduleFrom (isOpenNode prev docs) prev.srcGraph
        (prev.srcGraph.edges.length + 1)) (queuedNodes prev a) = some (queuedNodes prev a') := by
  induction files generalizing a with
  | nil =>
      obtain rfl := Option.some.inj h
      exact ⟨ha, fun f hf => absurd hf List.not_mem_nil, List.Subset.refl _, rfl⟩
  | cons f files ih =>
      rw [List.foldlM_cons, Option.bind_eq_bind, Option.bind_eq_some_iff] at h
      obtain ⟨b, hb, h⟩ := h
      have hf := hopen f List.mem_cons_self
      obtain ⟨hqueued, hunseen, hone⟩ := queueDoc_view hprev ha hf hb
      obtain ⟨-, hgrow⟩ := queueDoc_queued ha hf hb
      obtain ⟨hq, hnew, hsub, hrest⟩ :=
        ih (fun g hg => hopen g (List.mem_cons_of_mem _ hg)) hqueued h
      refine ⟨hq, fun g hg hnone => ?_, List.Subset.trans hgrow hsub, ?_⟩
      · rcases List.mem_cons.mp hg with rfl | hg
        · exact hsub (hunseen hnone)
        · exact hnew g hg hnone
      · have hsplit : nodesNamed prev (f :: files) =
            nodesNamed prev [f] ++ nodesNamed prev files := by
          unfold nodesNamed
          rw [← List.filterMap_append, List.singleton_append]
        rw [hsplit, List.foldlM_append, hone]
        exact hrest

end Walk

theorem isOpenNode_of_mem {E : Env} {c : AnalyzerCtx} (hc : CtxWF E c) {docs : Docs}
    {v : SrcId} (h : v ∈ nodesNamed c docs.keys) : isOpenNode c docs v = true := by
  obtain ⟨f, hf, hfind⟩ := List.mem_filterMap.mp h
  obtain ⟨src, hv, hname⟩ := hc.sources f v hfind
  rw [isOpenNode_of_srcs hv, hname]
  exact (docs.mem_keys_iff f).mp hf

/-- The queue at the head of the main loop. -/
structure Scheduled (E : Env) (docs : Docs) (prev : AnalyzerCtx) (a : Analyzer) : Prop where
  queued : Queued E docs prev a
  walk : (nodesNamed prev docs.keys).foldlM (scheduleFrom (isOpenNode prev docs) prev.srcGraph
    (prev.srcGraph.edges.length + 1)) [] = some (queuedNodes prev a)
  all : ∀ f, (docs.find? f).isSome → f ∈ queuedNames a

theorem analyzeBegin_scheduled {E : Env} {docs : Docs} {a a' : Analyzer}
    (hprev : Walkable E a.current) (h : analyzeBegin E docs a = some a') :
    Scheduled E docs a.current a' := by
  obtain ⟨hbegun, -⟩ := analyzeBegin_begun h
  obtain ⟨b, hb, rfl⟩ := Option.map_eq_some_iff.mp h
  obtain ⟨hq, hnew, -, hwalk⟩ := queueDocs_view hprev docs.keys
    (fun f hf => (docs.mem_keys_iff f).mp hf) (queued_swapCtx E docs a) hb
  refine ⟨⟨hbegun, hq.queue, hq.names, hq.opened⟩, hwalk, fun f hf => ?_⟩
  have hkey : f ∈ docs.keys := (docs.mem_keys_iff f).mpr hf
  cases hfind : a.current.sources.find? f with
  | none => exact hnew f hkey hfind
  | some v =>
      obtain ⟨src, hv, hname⟩ := hprev.wf.sources f v hfind
      have hmem : v ∈ nodesNamed a.current docs.keys :=
        (mem_nodesNamed hprev.wf hv _).mpr (hname ▸ hkey)
      have hin := (schedule_walked hprev.graph.acyclic (Nat.lt_succ_self _) _
        (fun d hd => isOpenNode_of_mem hprev.wf hd) hwalk).2 v hmem
      exact hname ▸ (mem_nodesNamed hprev.wf hv _).mp hin

theorem reachable_walkable {E : Env} {m : Machine} (h : Reachable (step E) Machine.init m) :
    Walkable E m.analyzer.current :=
  ⟨(reachable_ok h).current, (reachable_graphOK h).current, (reachable_edgesOK h).current⟩

/-- Each open document is in the queue once, and nothing else is. -/
theorem Scheduled.perm {E : Env} {docs : Docs} {prev : AnalyzerCtx} {a : Analyzer}
    (h : Scheduled E docs prev a) : (queuedNames a).Perm docs.keys := by
  refine (List.perm_ext_iff_of_nodup h.queued.nodup docs.nodup).mpr fun f => ?_
  change f ∈ queuedNames a ↔ f ∈ docs.keys
  rw [docs.mem_keys_iff]
  exact ⟨h.queued.opened f, h.all f⟩

/-! ## Which document comes first -/

/-- The path on which the walk over a previous graph, from the nodes of the open documents, first
    meets a node. -/
def entryPath (c : AnalyzerCtx) (docs : Docs) (v : SrcId) : Option (List SrcId) :=
  meetingPath c.srcGraph (c.srcGraph.edges.length + 1) (nodesNamed c docs.keys) v

/-- Two nodes come in the order in which their files are queued. -/
theorem queuedNodes_sublist_iff {E : Env} {prev : AnalyzerCtx} (hprev : CtxWF E prev)
    {a : Analyzer} {u v : SrcId} {su sv : SrcNode} (hu : prev.srcs[u]? = some su)
    (hv : prev.srcs[v]? = some sv) :
    List.Sublist [u, v] (queuedNodes prev a) ↔
      List.Sublist [su.filename, sv.filename] (queuedNames a) := by
  have hfu := (hprev.named u su hu).1
  have hfv := (hprev.named v sv hv).1
  unfold queuedNodes nodesNamed
  rw [List.sublist_filterMap_iff]
  constructor
  · intro h
    obtain ⟨files, hsub, heq⟩ := h
    -- the files of `files` without a node are dropped
    have hnames : List.Sublist [su.filename, sv.filename] files := by
      have hmap : (files.filterMap prev.sources.find?).map
          (fun id => (prev.srcs[id]?).elim [] SrcNode.filename) =
            files.filter fun f => (prev.sources.find? f).isSome := by
        rw [List.map_filterMap, ← List.filterMap_eq_filter]
        refine List.filterMap_congr fun f _ => ?_
        cases hf : prev.sources.find? f with
        | none => simp [Option.guard, hf]
        | some id =>
            obtain ⟨src, hs, hname⟩ := hprev.sources f id hf
            simp [Option.guard, hf, hs, hname]
      rw [← heq] at hmap
      simp only [List.map_cons, List.map_nil, hu, hv, Option.elim_some] at hmap
      rw [hmap]
      exact List.filter_sublist
    exact hnames.trans hsub
  · intro h
    refine ⟨_, h, ?_⟩
    simp only [List.filterMap_cons, hfu, hfv, List.filterMap_nil]

/-- Of two open documents that the previous run knew, an includer is queued before a file it
    included exactly when it lies on the path on which the walk first meets that file. -/
theorem includer_first_iff {E : Env} {m m' : Machine} {docs : Docs}
    (hm : Reachable (step E) Machine.init m) (h : step E m (.start docs) = some m')
    {u v : SrcId} {includer included : SrcNode}
    (hu : m.analyzer.current.srcs[u]? = some includer)
    (hv : m.analyzer.current.srcs[v]? = some included)
    (hou : (docs.find? includer.filename).isSome) (hov : (docs.find? included.filename).isSome)
    (hreach : TransGen m.analyzer.current.srcGraph.Adj u v) :
    List.Sublist [includer.filename, included.filename] (queuedNames m'.analyzer) ↔
      ∃ path, entryPath m.analyzer.current docs v = some path ∧ u ∈ path := by
  have hwalk := reachable_walkable hm
  cases step_cases h with
  | start _ ha =>
      have hsched := analyzeBegin_scheduled hwalk ha
      have hin : v ∈ queuedNodes m.analyzer.current _ :=
        (mem_nodesNamed hwalk.wf hv _).mpr (hsched.all _ hov)
      rw [← queuedNodes_sublist_iff hwalk.wf hu hv]
      exact schedule_precedes_iff hwalk.graph.acyclic (Nat.lt_succ_self _)
        (fun d hd => isOpenNode_of_mem hwalk.wf hd) hsched.walk hreach
        ((isOpenNode_of_srcs hu).trans hou) ((isOpenNode_of_srcs hv).trans hov) hin

/-! ## Two files that include a third -/

def fileC : CStr := ⟨3, ascii "c"⟩

/-- `a` and `b` are open and include `c`. -/
def includersDocs : Docs :=
  (Table.empty.put fileA.chars (ascii "~c")).put fileB.chars (ascii "~c")

/-- A pass that opens `files` after its entry; what is not open is empty on disk. -/
def openingPass (docs : Docs) (entry : CStr) (files : List CStr) : List Label :=
  .enter :: (entry :: files).map (fun f => .event (.fopen docs f (some []))) ++
    [.asmDone false, .leave]

def includersRun : List Label :=
  .start includersDocs :: (openingPass includersDocs fileA [fileC] ++
    openingPass includersDocs fileB [fileC]) ++ [.finish]

/-- Now `c` is open too, and `a` includes it no more. -/
def openedDocs : Docs := (includersDocs.put fileA.chars []).put fileC.chars []

/-- The steps of the second run up to its second pass. -/
def openedPass : List Label := openingPass openedDocs fileA [] ++ [.enter]

/-- What the first run leaves, the queue of the second, and its pass in progress. -/
structure Outcome where
  idle : Bool
  names : List Str
  edges : List (SrcId × SrcId)
  path : Option (List SrcId)
  queue : List Str
  entry : Option SrcId
  marks : List (Str × Bool)
deriving DecidableEq

def outcomeOf (m m' t : Machine) : Outcome where
  idle := decide (m.phase = .idle)
  names := m.analyzer.current.srcs.map SrcNode.filename
  edges := m.analyzer.current.srcGraph.edges
  path := entryPath m.analyzer.current openedDocs 2
  queue := queuedNames m'.analyzer
  entry := t.phase.passCtx.map AsmCtx.entryNode
  marks := t.analyzer.current.srcs.map fun src => (src.filename, src.analyzed)

def openedOutcome : Outcome where
  idle := true
  names := [ascii "a", ascii "b", ascii "c"]
  edges := [(1, 2), (0, 2)]
  path := some [0, 2]
  queue := [ascii "a", ascii "c", ascii "b"]
  entry := some 1
  marks := [(ascii "a", true), (ascii "c", false), (ascii "b", false)]

theorem opened_run :
    ∃ m m' t, run (step asciiEnv) Machine.init includersRun = some m ∧
      step asciiEnv m (.start openedDocs) = some m' ∧
      run (step asciiEnv) m' openedPass = some t ∧ outcomeOf m m' t = openedOutcome := by
  have hout : ((run (step asciiEnv) Machine.init includersRun).bind fun m =>
      (step asciiEnv m (.start openedDocs)).bind fun m' =>
        (run (step asciiEnv) m' openedPass).map (outcomeOf m m')) = some openedOutcome := by
    decide
  obtain ⟨m, hm, hout⟩ := Option.bind_eq_some_iff.mp hout
  obtain ⟨m', hm', hout⟩ := Option.bind_eq_some_iff.mp hout
  obtain ⟨t, ht, hout⟩ := Option.map_eq_some_iff.mp hout
  exact ⟨m, m', t, hm, hm', ht, hout⟩

theorem srcs_of_names {m : Machine} {names : List Str}
    (h : m.analyzer.current.srcs.map SrcNode.filename = names) {i : Nat} {f : Str}
    (hi : names[i]? = some f) :
    ∃ src : SrcNode, m.analyzer.current.srcs[i]? = some src ∧ src.filename = f := by
  rw [← h, List.getElem?_map] at hi
  exact Option.map_eq_some_iff.mp hi

/-- The walk meets `c` below `a`, so `a` stays in front of it. -/
theorem includer_first_of_met_first :
    ∃ m m', run (step asciiEnv) Machine.init includersRun = some m ∧
      step asciiEnv m (.start openedDocs) = some m' ∧
      List.Sublist [ascii "a", ascii "c"] (queuedNames m'.analyzer) := by
  obtain ⟨m, m', t, hm, hm', -, hout⟩ := opened_run
  have hnames := congrArg Outcome.names hout
  have hedges : m.analyzer.current.srcGraph.edges = [(1, 2), (0, 2)] :=
    congrArg Outcome.edges hout
  have hpath : entryPath m.analyzer.current openedDocs 2 = some [0, 2] :=
    congrArg Outcome.path hout
  obtain ⟨a, ha, hfa⟩ := srcs_of_names hnames (i := 0) rfl
  obtain ⟨c, hc, hfc⟩ := srcs_of_names hnames (i := 2) rfl
  have hadj : m.analyzer.current.srcGraph.Adj 0 2 := by
    unfold Lib.Digraph.Adj
    rw [hedges]
    decide
  refine ⟨m, m', hm, hm', ?_⟩
  rw [← hfa, ← hfc]
  refine (includer_first_iff ⟨_, hm⟩ hm' ha hc ?_ ?_ (.single hadj)).mpr
    ⟨_, hpath, by decide⟩
  · rw [hfa]
    decide
  · rw [hfc]
    decide

/-- `b` included `c` too, and `c` is queued before it. `a` does not include `c` any more, so `c` is
    an entry of its own, with `b` still to come. -/
theorem includer_first_fails :
    ∃ m m' t u v includer included, run (step asciiEnv) Machine.init includersRun = some m ∧
      m.phase = .idle ∧ step asciiEnv m (.start openedDocs) = some m' ∧
      m.analyzer.current.srcs[u]? = some includer ∧ m.analyzer.current.srcs[v]? = some included ∧
      (openedDocs.find? includer.filename).isSome ∧
      (openedDocs.find? included.filename).isSome ∧
      TransGen m.analyzer.current.srcGraph.Adj u v ∧
      ¬ List.Sublist [includer.filename, included.filename] (queuedNames m'.analyzer) ∧
      run (step asciiEnv) m' openedPass = some t ∧
      t.phase.passCtx.map AsmCtx.entryNode = some 1 ∧
      (t.analyzer.current.srcs.map fun src => (src.filename, src.analyzed)) =
        [(ascii "a", true), (ascii "c", false), (ascii "b", false)] := by
  obtain ⟨m, m', t, hm, hm', ht, hout⟩ := opened_run
  have hidle : m.phase = .idle := of_decide_eq_true (congrArg Outcome.idle hout)
  have hnames := congrArg Outcome.names hout
  have hedges : m.analyzer.current.srcGraph.edges = [(1, 2), (0, 2)] :=
    congrArg Outcome.edges hout
  have hqueue : queuedNames m'.analyzer = [ascii "a", ascii "c", ascii "b"] :=
    congrArg Outcome.queue hout
  obtain ⟨b, hb, hfb⟩ := srcs_of_names hnames (i := 1) rfl
  obtain ⟨c, hc, hfc⟩ := srcs_of_names hnames (i := 2) rfl
  have hadj : m.analyzer.current.srcGraph.Adj 1 2 := by
    unfold Lib.Digraph.Adj
    rw [hedges]
    decide
  refine ⟨m, m', t, 1, 2, b, c, hm, hidle, hm', hb, hc, ?_, ?_, .single hadj, ?_, ht,
    congrArg Outcome.entry hout, congrArg Outcome.marks hout⟩
  · rw [hfb]
    decide
  · rw [hfc]
    decide
  · rw [hfb, hfc, hqueue]
    decide

end BuxnLs.Analysis
