/-
  The analyzer keeps the index of `Model/Index.lean`. `indexOf` forgets what the pointers are for:
  a source node becomes its file name, a symbol node an entry with the target of its out-edge.
  `Indexed` says that the linked lists and the in-edges hold exactly the groups of that log; every
  change to the context keeps it and changes the log as the index does, so a request is answered
  from either alike (`answer_eq`).
-/
import BuxnLs.Analysis.Queries
import BuxnLs.Model.Index

namespace BuxnLs.Analysis

open BuxnLs.Lib BuxnLs.Model Relation

/-! ## Forgetting the pointers -/

def filenameOf (c : AnalyzerCtx) (id : SrcId) : Str := (c.srcs[id]?).elim [] SrcNode.filename

def indexEntry (c : AnalyzerCtx) (id : SymId) (n : SymNode) : IndexEntry where
  file := filenameOf c n.source
  name := n.name
  documentation := n.documentation
  signature := n.signature
  semantics := n.semantics
  byteOffset := n.byteOffset
  range := n.range
  target := (c.symGraph.outEdges id).head?

def indexOf (c : AnalyzerCtx) : Index where
  files := c.srcs.map SrcNode.filename
  log := c.syms.mapIdx (indexEntry c)

/-- The numbers of the entries with `p`, newest first. -/
def numbers (p : IndexEntry → Bool) (c : AnalyzerCtx) : List Nat :=
  (newest p (indexOf c).log).map Prod.snd

/-- The lists and the in-edges of a context are groups of its log. -/
structure Indexed (E : Env) (c : AnalyzerCtx) : Prop where
  wf : CtxWF E c
  placed : Placed c
  keys : c.sources.keys = (indexOf c).files
  definitions : ∀ f, definitionsOf c f = numbers (Index.isDefinitionIn f) c
  references : ∀ f, referencesOf c f = numbers (Index.isReferenceIn f) c
  incoming : ∀ d, c.symGraph.inEdges d = numbers (Index.refersTo d) c

theorem indexed_empty (E : Env) : Indexed E .empty where
  wf := ctxWF_empty E
  placed := fun id n h => by simp [AnalyzerCtx.empty] at h
  keys := rfl
  definitions := fun _ => rfl
  references := fun _ => rfl
  incoming := fun _ => rfl

theorem getElem?_indexOf (c : AnalyzerCtx) (i : Nat) :
    (indexOf c).log[i]? = (c.syms[i]?).map (indexEntry c i) :=
  List.getElem?_mapIdx

theorem length_indexOf (c : AnalyzerCtx) : (indexOf c).log.length = c.syms.length :=
  List.length_mapIdx

theorem filenameOf_of_find? {E : Env} {c : AnalyzerCtx} (hc : CtxWF E c) {f : Str} {id : SrcId}
    (h : c.sources.find? f = some id) : filenameOf c id = f := by
  obtain ⟨src, hs, hn⟩ := hc.sources f id h
  unfold filenameOf
  rw [hs]
  exact hn

theorem mem_files_iff {E : Env} {c : AnalyzerCtx} (hc : CtxWF E c) (f : Str) :
    f ∈ (indexOf c).files ↔ ∃ id, c.sources.find? f = some id := by
  constructor
  · intro h
    obtain ⟨src, hs, rfl⟩ := List.mem_map.mp h
    obtain ⟨id, hid⟩ := List.mem_iff_getElem?.mp hs
    exact ⟨id, (hc.named id src hid).1⟩
  · rintro ⟨id, hid⟩
    obtain ⟨src, hs, rfl⟩ := hc.sources f id hid
    exact List.mem_map.mpr ⟨src, List.mem_of_getElem? hs, rfl⟩

/-- Entries are rewritten alike when nodes keep their places and out-edges. -/
theorem indexOf_log_congr {c c' : AnalyzerCtx} (hsyms : c'.syms = c.syms)
    (hgraph : c'.symGraph = c.symGraph)
    (hfile : ∀ (i : Nat) (n : SymNode), c.syms[i]? = some n →
      filenameOf c' n.source = filenameOf c n.source) : (indexOf c').log = (indexOf c).log := by
  refine List.ext_getElem? fun i => ?_
  rw [getElem?_indexOf, getElem?_indexOf, hsyms]
  cases hn : c.syms[i]? with
  | none => rfl
  | some n =>
      rw [Option.map_some, Option.map_some]
      unfold indexEntry
      rw [hgraph, hfile i n hn]

/-! ## The changes to a context -/

theorem indexOf_addSource {E : Env} {c : AnalyzerCtx} (hc : CtxWF E c) (hp : Placed c) {f : Str}
    (hf : c.sources.find? f = none) : indexOf (addSource E c f) = (indexOf c).addFile f := by
  have hnew : f ∉ (indexOf c).files := by
    intro h
    obtain ⟨id, hid⟩ := (mem_files_iff hc f).mp h
    rw [hf] at hid
    cases hid
  have hlog : (indexOf (addSource E c f)).log = (indexOf c).log := by
    refine indexOf_log_congr rfl rfl fun i n hn => ?_
    obtain ⟨src, hs⟩ := hp i n hn
    unfold filenameOf
    rw [hs, addSource, getElem?_alloc_old hs]
  have hfiles : (indexOf (addSource E c f)).files = (indexOf c).files ++ [f] := by
    simp [indexOf, addSource, freshSrc]
  unfold Index.addFile
  rw [if_neg hnew, ← hlog, ← hfiles]

theorem filenameOf_modify (c : AnalyzerCtx) (node : SrcId) (f : SrcNode → SrcNode)
    (hf : ∀ src : SrcNode, (f src).filename = src.filename) (c' : AnalyzerCtx)
    (hs : c'.srcs = c.srcs.modify node f) (id : SrcId) : filenameOf c' id = filenameOf c id := by
  unfold filenameOf
  rw [hs, List.getElem?_modify]
  cases c.srcs[id]? with
  | none => rfl
  | some src =>
      show (if node = id then f src else src).filename = src.filename
      split
      · exact hf src
      · rfl

theorem files_modify (c : AnalyzerCtx) (node : SrcId) (f : SrcNode → SrcNode)
    (hf : ∀ src : SrcNode, (f src).filename = src.filename) :
    (c.srcs.modify node f).map SrcNode.filename = c.srcs.map SrcNode.filename := by
  refine List.ext_getElem? fun i => ?_
  rw [List.getElem?_map, List.getElem?_map, List.getElem?_modify]
  cases c.srcs[i]? with
  | none => rfl
  | some src =>
      show some (if node = i then f src else src).filename = some src.filename
      split
      · rw [hf]
      · rfl

theorem indexOf_openSource (c : AnalyzerCtx) (entry node : SrcId) :
    indexOf (openSource c entry node) = indexOf c := by
  have hlog : (indexOf (openSource c entry node)).log = (indexOf c).log :=
    indexOf_log_congr (openSource_syms c entry node) (by unfold openSource; split <;> rfl)
      fun _ n _ => filenameOf_modify c node (fun src => { src with analyzed := true })
        (fun _ => rfl) _ (openSource_srcs c entry node) n.source
  have hfiles : (indexOf (openSource c entry node)).files = (indexOf c).files := by
    unfold indexOf
    rw [openSource_srcs]
    exact files_modify c node (fun src => { src with analyzed := true }) fun _ => rfl
  calc indexOf (openSource c entry node)
      = ⟨(indexOf (openSource c entry node)).files, (indexOf (openSource c entry node)).log⟩ := rfl
    _ = indexOf c := by rw [hfiles, hlog]

/-- A symbol that is linked into a list of its source becomes a new entry. -/
theorem indexOf_link {c d : AnalyzerCtx} {node : SymNode} (f : SrcNode → SrcNode)
    (hf : ∀ src : SrcNode, (f src).filename = src.filename)
    (hsrcs : d.srcs = c.srcs.modify node.source f) (hsyms : d.syms = c.syms ++ [node])
    (hold : ∀ i, i < c.syms.length → d.symGraph.outEdges i = c.symGraph.outEdges i) :
    indexOf d = (indexOf c).add (indexEntry d c.syms.length node) := by
  have hfile := filenameOf_modify c node.source f hf d hsrcs
  have hlog : (indexOf d).log = (indexOf c).log ++ [indexEntry d c.syms.length node] := by
    show d.syms.mapIdx (indexEntry d) = c.syms.mapIdx (indexEntry c) ++ _
    rw [hsyms, List.mapIdx_concat]
    congr 1
    refine List.mapIdx_eq_mapIdx_iff.mpr fun i hi => ?_
    unfold indexEntry
    rw [hfile, hold i hi]
  have hfiles : (indexOf d).files = (indexOf c).files := by
    show d.srcs.map SrcNode.filename = _
    rw [hsrcs]
    exact files_modify c node.source f hf
  calc indexOf d = ⟨(indexOf d).files, (indexOf d).log⟩ := rfl
    _ = (indexOf c).add _ := by rw [hfiles, hlog]; rfl

theorem outEdges_of_le {E : Env} {c : AnalyzerCtx} (hc : CtxWF E c) {id : SymId}
    (h : c.syms.length ≤ id) : c.symGraph.outEdges id = [] := by
  refine List.eq_nil_iff_forall_not_mem.mpr fun d hd => ?_
  have hlt := (hc.symEdges id d ((c.symGraph.mem_outEdges id d).mp hd)).1
  exact absurd hlt (Nat.not_lt.mpr h)

theorem indexOf_linkDefinition {E : Env} {c : AnalyzerCtx} (hc : CtxWF E c) {f : Str}
    {node : SymNode} (hf : c.sources.find? f = some node.source) :
    indexOf (linkDefinition c node) =
      (indexOf c).add
        { file := f, name := node.name, documentation := node.documentation
          signature := node.signature, semantics := node.semantics
          byteOffset := node.byteOffset, range := node.range, target := none } := by
  rw [indexOf_link (c := c) (d := linkDefinition c node)
    (fun src => { src with definitions := c.syms.length :: src.definitions })
    (fun _ => rfl) rfl rfl fun i _ => rfl]
  have hfile : filenameOf (linkDefinition c node) node.source = f := by
    refine (filenameOf_modify c node.source _ (fun _ => ?_) _ rfl node.source).trans
      (filenameOf_of_find? hc hf)
    rfl
  unfold indexEntry
  rw [hfile, show (linkDefinition c node).symGraph.outEdges c.syms.length = [] from
    outEdges_of_le hc (Nat.le_refl _)]
  rfl

theorem indexOf_linkReference {E : Env} {c : AnalyzerCtx} (hc : CtxWF E c) {f : Str}
    {node : SymNode} (hf : c.sources.find? f = some node.source) (d : SymId) :
    indexOf (linkReference c node d) =
      (indexOf c).add
        { file := f, name := node.name, documentation := node.documentation
          signature := node.signature, semantics := node.semantics
          byteOffset := node.byteOffset, range := node.range, target := some d } := by
  have hold : ∀ i, i < c.syms.length →
      (linkReference c node d).symGraph.outEdges i = c.symGraph.outEdges i := by
    intro i hi
    exact (Digraph.outEdges_addEdge c.symGraph c.syms.length d i).trans
      (if_neg (Nat.ne_of_gt hi))
  rw [indexOf_link (c := c) (d := linkReference c node d)
    (fun src => { src with references := c.syms.length :: src.references })
    (fun _ => rfl) rfl rfl hold]
  have hfile : filenameOf (linkReference c node d) node.source = f := by
    refine (filenameOf_modify c node.source _ (fun _ => ?_) _ rfl node.source).trans
      (filenameOf_of_find? hc hf)
    rfl
  have hout : (linkReference c node d).symGraph.outEdges c.syms.length =
      d :: c.symGraph.outEdges c.syms.length :=
    (Digraph.outEdges_addEdge c.symGraph c.syms.length d _).trans (if_pos rfl)
  unfold indexEntry
  rw [hfile, hout]
  rfl

theorem indexOf_annotate (c : AnalyzerCtx) (id : SymId) {f : SymNode → SymNode}
    {g : IndexEntry → IndexEntry}
    (hfg : ∀ n, indexEntry c id (f n) = g (indexEntry c id n)) :
    indexOf (annotate c id f) = (indexOf c).rewrite id g := by
  have hlog : (indexOf (annotate c id f)).log = (indexOf c).log.modify id g := by
    refine List.ext_getElem? fun i => ?_
    rw [getElem?_indexOf, List.getElem?_modify, getElem?_indexOf, annotate]
    dsimp only
    rw [List.getElem?_modify]
    cases c.syms[i]? with
    | none => rfl
    | some n =>
        rw [Option.map_eq_map, Option.map_some, Option.map_some, Option.map_some]
        split
        · next he =>
            subst he
            exact congrArg some (hfg n)
        · rfl
  calc indexOf (annotate c id f) = ⟨(indexOf c).files, (indexOf (annotate c id f)).log⟩ := rfl
    _ = (indexOf c).rewrite id g := by rw [hlog]; rfl

/-! ## The groups -/

theorem numbers_congr {p : IndexEntry → Bool} {c c' : AnalyzerCtx}
    (h : (indexOf c').log.map p = (indexOf c).log.map p) : numbers p c' = numbers p c :=
  map_newest_congr h

theorem numbers_add {p : IndexEntry → Bool} {c c' : AnalyzerCtx} {e : IndexEntry}
    (h : indexOf c' = (indexOf c).add e) :
    numbers p c' = if p e then c.syms.length :: numbers p c else numbers p c := by
  unfold numbers
  rw [h, Index.add, newest_concat, length_indexOf]
  split <;> rfl

theorem Indexed.addSource {E : Env} {c : AnalyzerCtx} (h : Indexed E c) {f : Str}
    (hf : c.sources.find? f = none) (hp : Placed (Analysis.addSource E c f)) :
    Indexed E (Analysis.addSource E c f) := by
  have hlog : (indexOf (Analysis.addSource E c f)).log = (indexOf c).log := by
    rw [indexOf_addSource h.wf h.placed hf]
    unfold Index.addFile
    split <;> rfl
  have hnumbers : ∀ p, numbers p (Analysis.addSource E c f) = numbers p c :=
    fun p => numbers_congr (by rw [hlog])
  refine ⟨addSource_wf h.wf hf, hp, ?_, fun g => ?_, fun g => ?_, fun d => ?_⟩
  · have hnew : f ∉ c.sources.keys := (c.sources.find?_eq_none_iff f).mp hf
    show (c.sources.put f c.srcs.length).keys =
      (c.srcs ++ [freshSrc E f]).map SrcNode.filename
    rw [Table.keys_put, if_neg hnew, h.keys, List.map_append]
    rfl
  · rw [hnumbers, ← h.definitions, addSource_definitionsOf h.wf hf]
  · rw [hnumbers, ← h.references]
    exact linksOf_addSource h.wf rfl hf g
  · rw [hnumbers, ← h.incoming]
    rfl

theorem Indexed.openSource {E : Env} {c : AnalyzerCtx} (h : Indexed E c) (entry node : SrcId)
    (hp : Placed (Analysis.openSource c entry node)) :
    Indexed E (Analysis.openSource c entry node) := by
  have hindex := indexOf_openSource c entry node
  have hnumbers : ∀ p, numbers p (Analysis.openSource c entry node) = numbers p c :=
    fun p => numbers_congr (by rw [hindex])
  refine ⟨openSource_wf h.wf entry node, hp, ?_, fun g => ?_, fun g => ?_, fun d => ?_⟩
  · rw [hindex, ← h.keys, openSource_sources]
  · rw [hnumbers, ← h.definitions, openSource_definitionsOf]
  · rw [hnumbers, ← h.references]
    exact linksOf_modify c node (fun src => { src with analyzed := true }) (fun _ => rfl) _
      (openSource_sources c entry node) (openSource_srcs c entry node) g
  · rw [hnumbers, ← h.incoming]
    unfold Analysis.openSource
    split <;> rfl

theorem Indexed.linkDefinition {E : Env} {c : AnalyzerCtx} (h : Indexed E c) {f : Str}
    {node : SymNode} (hf : c.sources.find? f = some node.source)
    (hp : Placed (Analysis.linkDefinition c node)) :
    Indexed E (Analysis.linkDefinition c node) := by
  have hindex := indexOf_linkDefinition h.wf hf
  refine ⟨linkDefinition_wf h.wf node, hp, ?_, fun g => ?_, fun g => ?_, fun d => ?_⟩
  · rw [hindex]
    exact h.keys
  · rw [numbers_add hindex, linkDefinition_definitionsOf h.wf hf, h.definitions]
    simp [Index.isDefinitionIn, eq_comm]
  · rw [numbers_add hindex, ← h.references]
    simp only [Index.isReferenceIn, ne_eq, not_true_eq_false, and_false, decide_false,
      Bool.false_eq_true, if_false]
    exact linksOf_modify c node.source
      (fun src => { src with definitions := c.syms.length :: src.definitions }) (fun _ => rfl)
      (Analysis.linkDefinition c node) rfl rfl g
  · rw [numbers_add hindex, ← h.incoming]
    simp [Index.refersTo, Analysis.linkDefinition]

theorem Indexed.linkReference {E : Env} {c : AnalyzerCtx} (h : Indexed E c) {f : Str}
    {node : SymNode} {d : SymId} (hf : c.sources.find? f = some node.source)
    (hd : d < c.syms.length) (hp : Placed (Analysis.linkReference c node d)) :
    Indexed E (Analysis.linkReference c node d) := by
  have hindex := indexOf_linkReference h.wf hf d
  refine ⟨linkReference_wf h.wf node hd, hp, ?_, fun g => ?_, fun g => ?_, fun k => ?_⟩
  · rw [hindex]
    exact h.keys
  · rw [numbers_add hindex, linkReference_definitionsOf, h.definitions]
    simp [Index.isDefinitionIn]
  · rw [numbers_add hindex, ← h.references]
    have hlink : linksOf SrcNode.references (Analysis.linkReference c node d) g =
        if g = f then c.syms.length :: linksOf SrcNode.references c g
        else linksOf SrcNode.references c g :=
      linksOf_link h.wf hf
        (fun src => { src with references := c.syms.length :: src.references }) (fun _ => rfl)
        (Analysis.linkReference c node d) rfl rfl g
    refine hlink.trans ?_
    simp [Index.isReferenceIn, eq_comm, referencesOf, linksOf]
  · rw [numbers_add hindex, ← h.incoming]
    refine (Digraph.inEdges_addEdge c.symGraph c.syms.length d k).trans ?_
    simp [Index.refersTo]

theorem Indexed.annotate {E : Env} {c : AnalyzerCtx} (h : Indexed E c) (id : SymId)
    {f : SymNode → SymNode} (hf : Annotates f) (hp : Placed (Analysis.annotate c id f)) :
    Indexed E (Analysis.annotate c id f) := by
  -- an annotation writes neither the file nor the target of an entry
  have hentry : ∀ i : Nat, ((indexOf (Analysis.annotate c id f)).log[i]?).map
        (fun e : IndexEntry => (e.file, e.target)) =
      ((indexOf c).log[i]?).map fun e : IndexEntry => (e.file, e.target) := by
    intro i
    rw [getElem?_indexOf, getElem?_indexOf, Analysis.annotate]
    dsimp only
    rw [List.getElem?_modify]
    cases c.syms[i]? with
    | none => rfl
    | some n =>
        rw [Option.map_eq_map, Option.map_some, Option.map_some, Option.map_some, Option.map_some,
          Option.map_some]
        split
        · obtain ⟨doc, sig, sem, he⟩ := hf n
          rw [he]
          rfl
        · rfl
  have hnumbers : ∀ p : Str × Option Nat → Bool,
      numbers (fun e => p (e.file, e.target)) (Analysis.annotate c id f) =
        numbers (fun e => p (e.file, e.target)) c := by
    intro p
    refine numbers_congr (List.ext_getElem? fun i => ?_)
    have hmap := congrArg (Option.map p) (hentry i)
    rw [Option.map_map, Option.map_map] at hmap
    rw [List.getElem?_map, List.getElem?_map]
    exact hmap
  refine ⟨annotate_wf h.wf id hf, hp, h.keys, fun g => ?_, fun g => ?_, fun d => ?_⟩
  · exact (h.definitions g).trans (hnumbers fun e => e.1 = g ∧ e.2 = none).symm
  · exact (h.references g).trans (hnumbers fun e => e.1 = g ∧ e.2 ≠ none).symm
  · exact (h.incoming d).trans (hnumbers fun e => e.2 = some d).symm

/-- Every change keeps the groups. -/
theorem CtxStep.indexed {E : Env} {entry : SrcId} {c c' : AnalyzerCtx}
    (hs : CtxStep E entry c c') (h : Indexed E c) : Indexed E c' := by
  have hp := hs.placed h.wf h.placed
  cases hs with
  | addSource hf => exact h.addSource hf hp
  | openSource _ => exact h.openSource _ _ hp
  | definition hf => exact h.linkDefinition hf hp
  | reference hf hd => exact h.linkReference hf hd hp
  | annotate _ _ hf => exact h.annotate _ hf hp

theorem CtxSteps.indexed {E : Env} {entry : SrcId} {c c' : AnalyzerCtx}
    (hs : CtxSteps E entry c c') (h : Indexed E c) : Indexed E c' :=
  CtxSteps.inv (fun _ _ hc hs => hs.indexed hc) h hs

/-! ## Requests -/

section Answers

variable {E : Env} {c : AnalyzerCtx}

theorem Indexed.uriOfSym (h : Indexed E c) {i : Nat} {n : SymNode} (hn : c.syms[i]? = some n) :
    c.uriOfSym n = uriFor E (filenameOf c n.source) := by
  obtain ⟨src, hs⟩ := h.placed i n hn
  unfold AnalyzerCtx.uriOfSym filenameOf
  rw [hs]
  exact (h.wf.named _ src hs).2

/-- What is read at a symbol is read at its entry. -/
theorem Indexed.locationAt (h : Indexed E c) (i : Nat) :
    locationAt c i = ((indexOf c).log[i]?).map (IndexEntry.location E) := by
  unfold Analysis.locationAt
  rw [getElem?_indexOf]
  cases hn : c.syms[i]? with
  | none => rfl
  | some n =>
      rw [Option.map_some, Option.map_some, Option.map_some, AnalyzerCtx.locationOf, h.uriOfSym hn]
      rfl

theorem Indexed.hoverAt (h : Indexed E c) (i : Nat) :
    hoverAt E c i = ((indexOf c).log[i]?).bind (IndexEntry.hover E) := by
  unfold Analysis.hoverAt
  rw [getElem?_indexOf]
  cases hn : c.syms[i]? with
  | none => rfl
  | some n =>
      rw [Option.bind_some, Option.map_some, Option.bind_some, h.uriOfSym hn]
      rfl

theorem docSymbolAt_eq (c : AnalyzerCtx) (i : Nat) :
    docSymbolAt c i = ((indexOf c).log[i]?).map IndexEntry.docSymbol := by
  unfold docSymbolAt
  rw [getElem?_indexOf]
  cases c.syms[i]? <;> rfl

theorem Indexed.workspaceSymbolAt (h : Indexed E c) (value : Option Json) (i : Nat) :
    workspaceSymbolAt value c i = ((indexOf c).log[i]?).bind fun e =>
      if matchesQuery value e.name then some (e.workspaceSymbol E) else none := by
  unfold Analysis.workspaceSymbolAt
  rw [getElem?_indexOf]
  cases hn : c.syms[i]? with
  | none => rfl
  | some n =>
      rw [Option.bind_some, Option.map_some, Option.bind_some, AnalyzerCtx.workspaceSymbol,
        AnalyzerCtx.locationOf, h.uriOfSym hn]
      rfl

theorem coversAt_eq (c : AnalyzerCtx) (position : Position) (i : Nat) :
    c.coversAt position i = ((indexOf c).log[i]?).any fun e => e.range.covers position := by
  unfold AnalyzerCtx.coversAt
  rw [getElem?_indexOf]
  cases c.syms[i]? <;> rfl

/-- A search in a group by the symbols is one by the entries. -/
theorem find?_numbers (c : AnalyzerCtx) (p : IndexEntry → Bool) (position : Position) :
    (numbers p c).find? (c.coversAt position) =
      ((newest p (indexOf c).log).find? fun e => e.1.range.covers position).map Prod.snd := by
  refine find?_map_snd (r := fun e : IndexEntry => e.range.covers position) fun e he => ?_
  rw [coversAt_eq, (mem_newest_iff.mp he).1, Option.any_some]

/-- A walk over a group by the symbols is one by the entries. -/
theorem filterMap_numbers {β : Type} {c : AnalyzerCtx} {g : Nat → Option β}
    {k : IndexEntry → Option β} (hg : ∀ i, g i = ((indexOf c).log[i]?).bind k)
    (p : IndexEntry → Bool) :
    (numbers p c).filterMap g = ((newest p (indexOf c).log).map Prod.fst).filterMap k := by
  rw [List.filterMap_map]
  refine filterMap_map_snd fun e he => ?_
  rw [hg, (mem_newest_iff.mp he).1, Option.bind_some]

theorem Indexed.findDefinition (h : Indexed E c) (value : Option Json) :
    findDefinition E c value = (documentPath E value).bind fun f =>
      ((indexOf c).referenceAt f (positionOf value)).bind IndexEntry.target := by
  unfold Model.findDefinition
  rw [findReference_eq, Option.bind_assoc]
  congr 1
  funext f
  rw [h.references, find?_numbers]
  unfold Index.referenceAt
  cases hfind : (newest (Index.isReferenceIn f) (indexOf c).log).find?
      fun e => e.1.range.covers (positionOf value) with
  | none => rfl
  | some e =>
      have hmem := (mem_newest_iff.mp (List.mem_of_find?_eq_some hfind)).1
      rw [getElem?_indexOf] at hmem
      obtain ⟨n, -, hn⟩ := Option.map_eq_some_iff.mp hmem
      rw [Option.map_some, Option.bind_some, Option.map_some, Option.bind_some, ← hn]
      rfl

theorem Indexed.definition (h : Indexed E c) (value : Option Json) :
    handleFindDefinition E c value = ((documentPath E value).bind fun f =>
      (indexOf c).definitionOf f (positionOf value)).map (IndexEntry.location E) := by
  rw [handleFindDefinition_eq, h.findDefinition, Option.bind_assoc, Option.map_bind]
  refine Option.bind_congr fun f _ => ?_
  rw [Function.comp_apply, Index.definitionOf, Option.map_bind]
  exact Option.bind_congr fun d _ => h.locationAt d

theorem Indexed.hover (h : Indexed E c) (value : Option Json) :
    handleHover E c value = ((documentPath E value).bind fun f =>
      (indexOf c).definitionOf f (positionOf value)).bind (IndexEntry.hover E) := by
  rw [handleHover_eq, h.findDefinition, Option.bind_assoc, Option.bind_assoc]
  refine Option.bind_congr fun f _ => ?_
  rw [Index.definitionOf, Option.bind_assoc (f := fun number => (indexOf c).log[number]?)]
  exact Option.bind_congr fun d _ => h.hoverAt d

theorem Indexed.referencesTo (h : Indexed E c) (value : Option Json) :
    handleFindReferences E c value = ((documentPath E value).bind fun f =>
      (indexOf c).definitionAt f (positionOf value)).map fun number =>
        ((indexOf c).referencesTo number).map (IndexEntry.location E) := by
  have hfound : foundDefinition E c value = (documentPath E value).bind fun f =>
      (indexOf c).definitionAt f (positionOf value) := by
    unfold foundDefinition
    congr 1
    funext f
    rw [h.definitions, find?_numbers]
    rfl
  rw [handleFindReferences_eq, hfound]
  congr 1
  funext d
  rw [h.incoming, filterMap_numbers (k := fun e => some (e.location E)) fun i => ?_]
  · exact congrFun List.filterMap_eq_map' _
  · rw [h.locationAt, Option.map_eq_bind]
    rfl

theorem Indexed.docSymbols (h : Indexed E c) (value : Option Json) :
    handleListDocSymbols E c value = (documentPath E value).bind fun f =>
      if f ∈ (indexOf c).files then
        some (((indexOf c).definitionsIn f).map IndexEntry.docSymbol)
      else none := by
  rw [handleListDocSymbols_eq h.wf]
  congr 1
  funext f
  have hmem : (c.sources.find? f).isSome = true ↔ f ∈ (indexOf c).files := by
    rw [mem_files_iff h.wf, Option.isSome_iff_exists]
  simp only [hmem]
  split
  · rw [h.definitions, filterMap_numbers (k := fun e => some e.docSymbol) fun i => ?_]
    · exact congrArg some (congrFun List.filterMap_eq_map' _)
    · rw [docSymbolAt_eq, Option.map_eq_bind]
      rfl
  · rfl

theorem Indexed.workspaceSymbols (h : Indexed E c) (value : Option Json) :
    handleListWorkspaceSymbols c value =
      (Json.getStr (Json.get value (ascii "query"))).map fun query =>
        (indexOf c).files.flatMap fun f =>
          (((indexOf c).definitionsIn f).filter fun e =>
            query.takeWhile (· ≠ 0) <+: e.name).map (IndexEntry.workspaceSymbol E) := by
  rw [handleListWorkspaceSymbols_eq h.wf, h.keys]
  cases hquery : Json.getStr (Json.get value (ascii "query")) with
  | none => rfl
  | some query =>
      rw [Option.map_some, Option.map_some]
      congr 1
      refine List.flatMap_congr fun f _ => ?_
      rw [h.definitions, filterMap_numbers (h.workspaceSymbolAt value),
        ← congrFun (List.filterMap_eq_map (f := IndexEntry.workspaceSymbol E)),
        List.filterMap_filter]
      refine List.filterMap_congr fun e _ => ?_
      unfold matchesQuery
      rw [hquery, Option.any_some]
      rfl

/-- The definition that a hover shows is the one of the index. -/
theorem Indexed.hoverEntry (h : Indexed E c) (value : Option Json) :
    ((Model.findDefinition E c value).bind fun id => (indexOf c).log[id]?) =
      (documentPath E value).bind fun f => (indexOf c).definitionOf f (positionOf value) := by
  rw [h.findDefinition, Option.bind_assoc]
  rfl

/-- A handler reads a null path on the context where it does on the index. -/
theorem Indexed.readsNullPath (h : Indexed E c) (query : Query) (value : Option Json) :
    queryReadsNull E c query value = (indexOf c).readsNullPath E query value := by
  cases query with
  | definition => rfl
  | references => rfl
  | documentSymbol => rfl
  | workspaceSymbol => rfl
  | hover =>
      unfold queryReadsNull Index.readsNullPath
      dsimp only
      rw [← h.hoverEntry]
      congr 1
      cases Model.findDefinition E c value with
      | none => rfl
      | some id =>
          rw [Option.bind_some, Option.bind_some, getElem?_indexOf]
          cases hn : c.syms[id]? with
          | none => rfl
          | some n =>
              rw [Option.map_some, Option.elim_some, Option.elim_some, h.uriOfSym hn]
              rfl

/-- A request is answered from the context as from its index. -/
theorem Indexed.answer (h : Indexed E c) (query : Query) (value : Option Json) :
    answer E c query value = (indexOf c).answer E query value := by
  cases query with
  | definition => exact congrArg Reply.location (h.definition value)
  | references => exact congrArg Reply.locations (h.referencesTo value)
  | hover => exact congrArg Reply.hover (h.hover value)
  | documentSymbol => exact congrArg Reply.docSymbols (h.docSymbols value)
  | workspaceSymbol => exact congrArg Reply.workspaceSymbols (h.workspaceSymbols value)

end Answers

end BuxnLs.Analysis
