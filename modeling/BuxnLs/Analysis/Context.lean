/-
  What can happen to the context being built. `CtxStep` lists the five kinds of change to
  `current_ctx`; every callback and every loop of `analyze.c` is a sequence of them
  (`Analysis/Effect.lean`), so an invariant of the context is proved once for each kind.
  `CtxWF` is the shape invariant: `sources` and the source nodes name each other, the linked
  lists hold nodes of their own file, and symbol edges join nodes that exist.
-/
import BuxnLs.Lib.Arena
import BuxnLs.Model.Analyze
import Mathlib.Logic.Relation

namespace BuxnLs.Analysis

open BuxnLs.Lib BuxnLs.Model Relation

/-! ## The changes -/

def freshSrc (E : Env) (filename : Str) : SrcNode where
  filename := filename
  uri := uriFor E filename
  references := []
  definitions := []
  analyzed := false

def addSource (E : Env) (c : AnalyzerCtx) (filename : Str) : AnalyzerCtx :=
  { c with
      srcs := c.srcs ++ [freshSrc E filename]
      sources := c.sources.put filename c.srcs.length }

def markAnalyzed (c : AnalyzerCtx) (node : SrcId) : AnalyzerCtx :=
  { c with srcs := c.srcs.modify node fun src => { src with analyzed := true } }

/-- The end of `buxn_asm_fopen`. -/
def openSource (c : AnalyzerCtx) (entry node : SrcId) : AnalyzerCtx :=
  if node ≠ entry then
    { markAnalyzed c node with srcGraph := c.srcGraph.addEdge entry node }
  else markAnalyzed c node

def linkDefinition (c : AnalyzerCtx) (node : SymNode) : AnalyzerCtx :=
  { c with
      syms := c.syms ++ [node]
      srcs := c.srcs.modify node.source fun src =>
        { src with definitions := c.syms.length :: src.definitions } }

def linkReference (c : AnalyzerCtx) (node : SymNode) (defNode : SymId) : AnalyzerCtx :=
  { c with
      syms := c.syms ++ [node]
      srcs := c.srcs.modify node.source fun src =>
        { src with references := c.syms.length :: src.references }
      symGraph := c.symGraph.addEdge c.syms.length defNode }

def annotate (c : AnalyzerCtx) (id : SymId) (f : SymNode → SymNode) : AnalyzerCtx :=
  { c with syms := c.syms.modify id f }

/-- `f` only touches what annotations set. -/
def Annotates (f : SymNode → SymNode) : Prop :=
  ∀ n, ∃ doc sig sem, f n = { n with documentation := doc, signature := sig, semantics := sem }

/-- One change of the current context during a run, in a pass for `entry`. -/
inductive CtxStep (E : Env) (entry : SrcId) : AnalyzerCtx → AnalyzerCtx → Prop where
  | addSource {c filename} : c.sources.find? filename = none →
      CtxStep E entry c (addSource E c filename)
  | openSource {c filename node} : c.sources.find? filename = some node →
      CtxStep E entry c (openSource c entry node)
  | definition {c filename node} : c.sources.find? filename = some node.source →
      CtxStep E entry c (linkDefinition c node)
  | reference {c filename node defNode} : c.sources.find? filename = some node.source →
      defNode < c.syms.length → CtxStep E entry c (linkReference c node defNode)
  | annotate {c id node e f} : c.syms[id]? = some node → node.origin = .emitted e →
      Annotates f → CtxStep E entry c (annotate c id f)

abbrev CtxSteps (E : Env) (entry : SrcId) : AnalyzerCtx → AnalyzerCtx → Prop :=
  ReflTransGen (CtxStep E entry)

/-- What every change keeps, every sequence of changes keeps. -/
theorem CtxSteps.inv {E : Env} {entry : SrcId} {P : AnalyzerCtx → Prop}
    (hstep : ∀ c c', P c → CtxStep E entry c c' → P c') {c c' : AnalyzerCtx} (hc : P c)
    (h : CtxSteps E entry c c') : P c' := by
  induction h with
  | refl => exact hc
  | tail _ hs ih => exact hstep _ _ ih hs

/-! ## Well-formed contexts -/

/-- The linked nodes `ids` are distinct and belong to the source node `id`. -/
def Linked (c : AnalyzerCtx) (id : SrcId) (ids : List SymId) : Prop :=
  ids.Nodup ∧ ∀ s ∈ ids, ∃ node : SymNode, c.syms[s]? = some node ∧ node.source = id

structure CtxWF (E : Env) (c : AnalyzerCtx) : Prop where
  sources : ∀ (filename : Str) (id : SrcId), c.sources.find? filename = some id →
    ∃ src : SrcNode, c.srcs[id]? = some src ∧ src.filename = filename
  named : ∀ (id : SrcId) (src : SrcNode), c.srcs[id]? = some src →
    c.sources.find? src.filename = some id ∧ src.uri = uriFor E src.filename
  definitions : ∀ (id : SrcId) (src : SrcNode), c.srcs[id]? = some src →
    Linked c id src.definitions
  references : ∀ (id : SrcId) (src : SrcNode), c.srcs[id]? = some src →
    Linked c id src.references
  symEdges : ∀ r d, c.symGraph.Adj r d → r < c.syms.length ∧ d < c.syms.length

theorem ctxWF_empty (E : Env) : CtxWF E .empty where
  sources := fun filename id h => by cases h
  named := fun id src h => by simp [AnalyzerCtx.empty] at h
  definitions := fun id src h => by simp [AnalyzerCtx.empty] at h
  references := fun id src h => by simp [AnalyzerCtx.empty] at h
  symEdges := fun r d h => absurd h (Lib.Digraph.not_adj_empty r d)

/-- Once a file has a node, it keeps it. -/
theorem find?_sources_of_step {E : Env} {entry : SrcId} {c c' : AnalyzerCtx}
    (h : CtxStep E entry c c') {filename : Str} {id : SrcId}
    (hf : c.sources.find? filename = some id) : c'.sources.find? filename = some id := by
  cases h with
  | @addSource new hnew =>
      have hne : new ≠ filename := fun he => by
        rw [he, hf] at hnew
        cases hnew
      exact (Table.find?_put_ne _ _ hne).trans hf
  | openSource _ => unfold openSource; split <;> exact hf
  | definition _ => exact hf
  | reference _ _ => exact hf
  | annotate _ _ _ => exact hf

theorem CtxSteps.find?_sources {E : Env} {entry : SrcId} {c c' : AnalyzerCtx}
    (h : CtxSteps E entry c c') {filename : Str} {id : SrcId}
    (hf : c.sources.find? filename = some id) : c'.sources.find? filename = some id :=
  CtxSteps.inv (P := fun x => x.sources.find? filename = some id)
    (fun _ _ hx hs => find?_sources_of_step hs hx) hf h

theorem CtxWF.source_lt {E : Env} {c : AnalyzerCtx} (h : CtxWF E c) {filename : Str} {id : SrcId}
    (hf : c.sources.find? filename = some id) : id < c.srcs.length := by
  obtain ⟨src, hs, -⟩ := h.sources filename id hf
  exact lt_length_of_getElem? hs

/-- Two files with one `uri` are one source node. -/
theorem CtxWF.uri_inj {E : Env} {c : AnalyzerCtx} (h : CtxWF E c) {i j : SrcId} {s t : SrcNode}
    (hi : c.srcs[i]? = some s) (hj : c.srcs[j]? = some t) (hu : s.uri = t.uri) : i = j := by
  obtain ⟨hsi, hsu⟩ := h.named i s hi
  obtain ⟨htj, htu⟩ := h.named j t hj
  have hf : s.filename = t.filename := by
    rw [hsu, htu] at hu
    exact List.append_cancel_left hu
  rw [hf, htj] at hsi
  exact (Option.some.inj hsi).symm

theorem addSource_wf {E : Env} {c : AnalyzerCtx} (h : CtxWF E c) {filename : Str}
    (hf : c.sources.find? filename = none) : CtxWF E (addSource E c filename) := by
  have hsrc : ∀ (id : SrcId) (src : SrcNode), (addSource E c filename).srcs[id]? = some src →
      c.srcs[id]? = some src ∨ (id = c.srcs.length ∧ src = freshSrc E filename) :=
    fun id src hs => (getElem?_alloc_iff _ _ _ _).mp hs
  constructor
  · intro f id hid
    simp only [addSource, Table.find?_put] at hid
    split at hid
    · rename_i he
      cases hid
      exact ⟨_, (getElem?_alloc_iff _ _ _ _).mpr (Or.inr ⟨rfl, rfl⟩), he⟩
    · obtain ⟨src, hs, hn⟩ := h.sources f id hid
      exact ⟨src, getElem?_alloc_old hs, hn⟩
  · intro id src hs
    simp only [addSource, Table.find?_put]
    rcases hsrc id src hs with hs | ⟨rfl, rfl⟩
    · have hn := h.named id src hs
      have hne : filename ≠ src.filename := fun he => by
        rw [he, hn.1] at hf
        cases hf
      rw [if_neg hne]
      exact hn
    · exact ⟨if_pos rfl, rfl⟩
  · intro id src hs
    rcases hsrc id src hs with hs | ⟨rfl, rfl⟩
    · exact h.definitions id src hs
    · exact ⟨List.nodup_nil, fun d hd => by cases hd⟩
  · intro id src hs
    rcases hsrc id src hs with hs | ⟨rfl, rfl⟩
    · exact h.references id src hs
    · exact ⟨List.nodup_nil, fun d hd => by cases hd⟩
  · exact h.symEdges

theorem markAnalyzed_wf {E : Env} {c : AnalyzerCtx} (h : CtxWF E c) (node : SrcId) :
    CtxWF E (markAnalyzed c node) := by
  -- only `analyzed` differs between a node before and after
  have hsrc : ∀ (id : SrcId) (src : SrcNode), (markAnalyzed c node).srcs[id]? = some src →
      ∃ old : SrcNode, c.srcs[id]? = some old ∧ src.filename = old.filename ∧ src.uri = old.uri ∧
        src.definitions = old.definitions ∧ src.references = old.references := by
    intro id src hs
    obtain ⟨old, ho, rfl⟩ := (getElem?_modify_iff _ _ _ _ _).mp hs
    refine ⟨old, ho, ?_⟩
    split <;> simp
  constructor
  · intro f id hid
    obtain ⟨src, hs, hn⟩ := h.sources f id hid
    refine ⟨_, (getElem?_modify_iff _ _ _ _ _).mpr ⟨src, hs, rfl⟩, ?_⟩
    split <;> exact hn
  · intro id src hs
    obtain ⟨old, ho, hf, hu, -, -⟩ := hsrc id src hs
    rw [hf, hu]
    exact h.named id old ho
  · intro id src hs
    obtain ⟨old, ho, -, -, hd, -⟩ := hsrc id src hs
    rw [hd]
    exact h.definitions id old ho
  · intro id src hs
    obtain ⟨old, ho, -, -, -, hr⟩ := hsrc id src hs
    rw [hr]
    exact h.references id old ho
  · exact h.symEdges

theorem openSource_wf {E : Env} {c : AnalyzerCtx} (h : CtxWF E c) (entry node : SrcId) :
    CtxWF E (openSource c entry node) := by
  have hm := markAnalyzed_wf h node
  unfold openSource
  split
  · exact ⟨hm.sources, hm.named, hm.definitions, hm.references, hm.symEdges⟩
  · exact hm

/-- Old links survive as long as every old node keeps its source. -/
theorem Linked.mono {c : AnalyzerCtx} {id : SrcId} {ids : List SymId} (h : Linked c id ids)
    (c' : AnalyzerCtx)
    (hsym : ∀ (i : SymId) (s : SymNode), c.syms[i]? = some s →
      ∃ s' : SymNode, c'.syms[i]? = some s' ∧ s'.source = s.source) : Linked c' id ids := by
  refine ⟨h.1, fun i hi => ?_⟩
  obtain ⟨s, hs, hsrc⟩ := h.2 i hi
  obtain ⟨s', hs', he⟩ := hsym i s hs
  exact ⟨s', hs', he.trans hsrc⟩

theorem syms_alloc_source (c : AnalyzerCtx) (node : SymNode) (i : SymId) (s : SymNode)
    (hs : c.syms[i]? = some s) :
    ∃ s' : SymNode, (c.syms ++ [node])[i]? = some s' ∧ s'.source = s.source :=
  ⟨s, getElem?_alloc_old hs, rfl⟩

/-- A fresh node in front of the links of its own source. -/
theorem Linked.cons {c c' : AnalyzerCtx} {node : SymNode} {ids : List SymId}
    (h : Linked c node.source ids) (hc : c'.syms = c.syms ++ [node]) :
    Linked c' node.source (c.syms.length :: ids) := by
  have hold := h.mono c' (hc ▸ syms_alloc_source c node)
  refine ⟨List.nodup_cons.mpr ⟨fun hm => ?_, h.1⟩, fun i hi => ?_⟩
  · obtain ⟨s, hs, -⟩ := h.2 _ hm
    exact absurd (lt_length_of_getElem? hs) (Nat.lt_irrefl _)
  · rcases List.mem_cons.mp hi with rfl | hi
    · exact ⟨node, by rw [hc]; exact (getElem?_alloc_iff _ _ _ _).mpr (Or.inr ⟨rfl, rfl⟩), rfl⟩
    · exact hold.2 i hi

theorem linkDefinition_wf {E : Env} {c : AnalyzerCtx} (h : CtxWF E c) (node : SymNode) :
    CtxWF E (linkDefinition c node) := by
  constructor
  · intro f id hid
    obtain ⟨src, hs, hn⟩ := h.sources f id hid
    refine ⟨_, (getElem?_modify_iff _ _ _ _ _).mpr ⟨src, hs, rfl⟩, ?_⟩
    split <;> exact hn
  · intro id src hs
    obtain ⟨old, ho, rfl⟩ := (getElem?_modify_iff _ _ _ _ _).mp hs
    split <;> exact h.named id old ho
  · intro id src hs
    obtain ⟨old, ho, rfl⟩ := (getElem?_modify_iff _ _ _ _ _).mp hs
    have hd := h.definitions id old ho
    split
    · rename_i he
      subst he
      exact hd.cons rfl
    · exact hd.mono (linkDefinition c node) (syms_alloc_source c node)
  · intro id src hs
    obtain ⟨old, ho, rfl⟩ := (getElem?_modify_iff _ _ _ _ _).mp hs
    have hr := (h.references id old ho).mono (linkDefinition c node)
      (syms_alloc_source c node)
    split <;> exact hr
  · intro r d hrd
    obtain ⟨h1, h2⟩ := h.symEdges r d hrd
    simp only [linkDefinition, List.length_append, List.length_singleton]
    exact ⟨Nat.lt_succ_of_lt h1, Nat.lt_succ_of_lt h2⟩

theorem linkReference_wf {E : Env} {c : AnalyzerCtx} (h : CtxWF E c) (node : SymNode)
    {defNode : SymId} (hd : defNode < c.syms.length) : CtxWF E (linkReference c node defNode) := by
  constructor
  · intro f id hid
    obtain ⟨src, hs, hn⟩ := h.sources f id hid
    refine ⟨_, (getElem?_modify_iff _ _ _ _ _).mpr ⟨src, hs, rfl⟩, ?_⟩
    split <;> exact hn
  · intro id src hs
    obtain ⟨old, ho, rfl⟩ := (getElem?_modify_iff _ _ _ _ _).mp hs
    split <;> exact h.named id old ho
  · intro id src hs
    obtain ⟨old, ho, rfl⟩ := (getElem?_modify_iff _ _ _ _ _).mp hs
    have hd := (h.definitions id old ho).mono (linkReference c node defNode)
      (syms_alloc_source c node)
    split <;> exact hd
  · intro id src hs
    obtain ⟨old, ho, rfl⟩ := (getElem?_modify_iff _ _ _ _ _).mp hs
    have hr := h.references id old ho
    split
    · rename_i he
      subst he
      exact hr.cons rfl
    · exact hr.mono (linkReference c node defNode) (syms_alloc_source c node)
  · intro r d' hrd
    simp only [linkReference, List.length_append, List.length_singleton]
    rcases (Lib.Digraph.adj_addEdge _ _ _ _ _).mp hrd with ⟨rfl, rfl⟩ | hrd
    · exact ⟨Nat.lt_succ_self _, Nat.lt_succ_of_lt hd⟩
    · obtain ⟨h1, h2⟩ := h.symEdges r d' hrd
      exact ⟨Nat.lt_succ_of_lt h1, Nat.lt_succ_of_lt h2⟩

theorem annotate_wf {E : Env} {c : AnalyzerCtx} (h : CtxWF E c) (id : SymId)
    {f : SymNode → SymNode} (hf : Annotates f) : CtxWF E (annotate c id f) := by
  have hsym : ∀ (i : SymId) (s : SymNode), c.syms[i]? = some s →
      ∃ s' : SymNode, (annotate c id f).syms[i]? = some s' ∧ s'.source = s.source := by
    intro i s hs
    refine ⟨_, (getElem?_modify_iff _ _ _ _ _).mpr ⟨s, hs, rfl⟩, ?_⟩
    split
    · obtain ⟨doc, sig, sem, he⟩ := hf s
      rw [he]
    · rfl
  exact ⟨h.sources, h.named, fun i src hs => (h.definitions i src hs).mono _ hsym,
    fun i src hs => (h.references i src hs).mono _ hsym,
    fun r d hrd => by simpa [annotate] using h.symEdges r d hrd⟩

theorem CtxStep.wf {E : Env} {entry : SrcId} {c c' : AnalyzerCtx} (h : CtxStep E entry c c')
    (hc : CtxWF E c) : CtxWF E c' := by
  cases h with
  | addSource hf => exact addSource_wf hc hf
  | openSource _ => exact openSource_wf hc _ _
  | definition _ => exact linkDefinition_wf hc _
  | reference _ hd => exact linkReference_wf hc _ hd
  | annotate _ _ hf => exact annotate_wf hc _ hf

theorem CtxSteps.wf {E : Env} {entry : SrcId} {c c' : AnalyzerCtx} (h : CtxSteps E entry c c')
    (hc : CtxWF E c) : CtxWF E c' :=
  CtxSteps.inv (fun _ _ hc hs => hs.wf hc) hc h

/-! ## Definitions of this run -/

/-- `id` is a definition emitted in this run and listed by its file. -/
def Defined (c : AnalyzerCtx) (id : SymId) : Prop :=
  ∃ (node : SymNode) (src : SrcNode) (entry : SrcId), c.syms[id]? = some node ∧
    node.origin = .emitted entry ∧ c.srcs[node.source]? = some src ∧ id ∈ src.definitions

theorem Defined.lt {c : AnalyzerCtx} {id : SymId} (h : Defined c id) : id < c.syms.length := by
  obtain ⟨node, -, -, hn, -⟩ := h
  exact lt_length_of_getElem? hn

/-- A change keeps `id` defined when nodes keep origin and source and lists keep their ids. -/
theorem Defined.mono {c c' : AnalyzerCtx} {id : SymId} (h : Defined c id)
    (hsym : ∀ (i : SymId) (s : SymNode), c.syms[i]? = some s →
      ∃ s' : SymNode, c'.syms[i]? = some s' ∧ s'.source = s.source ∧ s'.origin = s.origin)
    (hsrc : ∀ (i : SrcId) (s : SrcNode), c.srcs[i]? = some s →
      ∃ s' : SrcNode, c'.srcs[i]? = some s' ∧ s.definitions ⊆ s'.definitions) :
    Defined c' id := by
  obtain ⟨node, src, entry, hn, ho, hs, hm⟩ := h
  obtain ⟨node', hn', hsource, horigin⟩ := hsym id node hn
  obtain ⟨src', hs', hsub⟩ := hsrc _ src hs
  exact ⟨node', src', entry, hn', horigin.trans ho, hsource ▸ hs', hsub hm⟩

theorem CtxStep.defined {E : Env} {entry : SrcId} {c c' : AnalyzerCtx}
    (h : CtxStep E entry c c') {id : SymId} (hd : Defined c id) : Defined c' id := by
  have hold : ∀ (n : SymNode) (i : SymId) (s : SymNode), c.syms[i]? = some s →
      ∃ s' : SymNode, (c.syms ++ [n])[i]? = some s' ∧ s'.source = s.source ∧
        s'.origin = s.origin := fun n i s hs => ⟨s, getElem?_alloc_old hs, rfl, rfl⟩
  have hmod : ∀ (j : SrcId) (f : SrcNode → SrcNode),
      (∀ src : SrcNode, src.definitions ⊆ (f src).definitions) →
      ∀ (i : SrcId) (s : SrcNode), c.srcs[i]? = some s →
        ∃ s' : SrcNode, (c.srcs.modify j f)[i]? = some s' ∧ s.definitions ⊆ s'.definitions := by
    intro j f hf i s hs
    refine ⟨_, (getElem?_modify_iff _ _ _ _ _).mpr ⟨s, hs, rfl⟩, ?_⟩
    split
    · exact hf s
    · exact List.Subset.refl _
  cases h with
  | addSource _ =>
      exact hd.mono (fun i s hs => ⟨s, hs, rfl, rfl⟩)
        fun i s hs => ⟨s, getElem?_alloc_old hs, List.Subset.refl _⟩
  | @openSource _ node _ =>
      have hm : Defined (markAnalyzed c node) id :=
        hd.mono (fun i s hs => ⟨s, hs, rfl, rfl⟩) (hmod _ _ fun _ => List.Subset.refl _)
      unfold Analysis.openSource
      split
      · exact hm
      · exact hm
  | definition _ => exact hd.mono (hold _) (hmod _ _ fun src => List.subset_cons_self _ _)
  | reference _ _ => exact hd.mono (hold _) (hmod _ _ fun src => List.Subset.refl _)
  | annotate _ _ hf =>
      refine hd.mono (fun i s hs => ?_) fun i s hs => ⟨s, hs, List.Subset.refl _⟩
      refine ⟨_, (getElem?_modify_iff _ _ _ _ _).mpr ⟨s, hs, rfl⟩, ?_⟩
      split
      · obtain ⟨doc, sig, sem, he⟩ := hf s
        rw [he]
        exact ⟨rfl, rfl⟩
      · exact ⟨rfl, rfl⟩

theorem CtxSteps.defined {E : Env} {entry : SrcId} {c c' : AnalyzerCtx}
    (h : CtxSteps E entry c c') {id : SymId} (hd : Defined c id) : Defined c' id :=
  CtxSteps.inv (P := fun x => Defined x id) (fun _ _ hd hs => hs.defined hd) hd h

/-- A definition emitted in this run is defined once it is linked. -/
theorem linkDefinition_defined {E : Env} {c : AnalyzerCtx} (hc : CtxWF E c) {filename : Str}
    {node : SymNode} {entry : SrcId} (hf : c.sources.find? filename = some node.source)
    (ho : node.origin = .emitted entry) : Defined (linkDefinition c node) c.syms.length := by
  obtain ⟨src, hs, -⟩ := hc.sources filename node.source hf
  refine ⟨node, { src with definitions := c.syms.length :: src.definitions }, entry,
    (getElem?_alloc_iff _ _ _ _).mpr (Or.inr ⟨rfl, rfl⟩), ho, ?_, List.mem_cons_self⟩
  exact (getElem?_modify_iff _ _ _ _ _).mpr ⟨src, hs, by rw [if_pos rfl]⟩

end BuxnLs.Analysis
