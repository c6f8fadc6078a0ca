/-
  What a request reads of the context, and what leaves its answer alone. Every answer is read
  off at the symbols of a list or at the end of an edge, so a change to the context matters only
  if it touches that list, that edge or those nodes: `affects` says when, and
  `queries_see_whole` says that a request which nothing affects from when it is handled until
  the analysis ends is answered as after the analysis.
-/
import BuxnLs.Analysis.Navigation
import BuxnLs.Model.Serving

namespace BuxnLs.Analysis

open BuxnLs.Lib BuxnLs.Model Relation

/-! ## Answers, read at symbols -/

/-- The references that a file lists; none when it has no node. -/
def referencesOf (c : AnalyzerCtx) (filename : Str) : List SymId :=
  (c.srcOf filename).elim [] SrcNode.references

/-- The definition that a references request finds. -/
def foundDefinition (E : Env) (c : AnalyzerCtx) (value : Option Json) : Option SymId :=
  (documentPath E value).bind fun f =>
    (definitionsOf c f).find? (c.coversAt (positionOf value))

def locationAt (c : AnalyzerCtx) (id : SymId) : Option LocationReply :=
  (c.syms[id]?).map c.locationOf

/-- What a hover shows of a definition. -/
def hoverAt (E : Env) (c : AnalyzerCtx) (id : SymId) : Option HoverReply :=
  (c.syms[id]?).bind fun node =>
    (resolvePath E (some (c.uriOfSym node))).map fun _ =>
      { value := hoverText node ((c.srcs[node.source]?).elim [] SrcNode.filename)
        range := node.range }

def docSymbolAt (c : AnalyzerCtx) (id : SymId) : Option DocSymbolReply :=
  (c.syms[id]?).map docSymbol

/-- The name of a symbol starts with the query of a request, read as a C string. -/
def matchesQuery (value : Option Json) (name : Str) : Bool :=
  (Json.getStr (Json.get value (ascii "query"))).any fun query =>
    query.takeWhile (· ≠ 0) <+: name

def workspaceSymbolAt (value : Option Json) (c : AnalyzerCtx) (id : SymId) :
    Option WorkspaceSymbolReply :=
  (c.syms[id]?).bind fun node =>
    if matchesQuery value node.name then some (c.workspaceSymbol node) else none

theorem findReference_eq (E : Env) (c : AnalyzerCtx) (value : Option Json) :
    findReference E c value = (documentPath E value).bind fun f =>
      (referencesOf c f).find? (c.coversAt (positionOf value)) := by
  unfold findReference requestSource referencesOf
  cases documentPath E value with
  | none => rfl
  | some f =>
      rw [Option.bind_some, Option.bind_some]
      cases c.srcOf f <;> rfl

theorem handleFindDefinition_eq (E : Env) (c : AnalyzerCtx) (value : Option Json) :
    handleFindDefinition E c value = (findDefinition E c value).bind (locationAt c) := by
  unfold handleFindDefinition
  cases findDefinition E c value <;> rfl

theorem handleHover_eq (E : Env) (c : AnalyzerCtx) (value : Option Json) :
    handleHover E c value = (findDefinition E c value).bind (hoverAt E c) := by
  unfold handleHover
  cases findDefinition E c value <;> rfl

theorem handleFindReferences_eq (E : Env) (c : AnalyzerCtx) (value : Option Json) :
    handleFindReferences E c value = (foundDefinition E c value).map fun d =>
      (c.symGraph.inEdges d).filterMap (locationAt c) := by
  have hfound : ((requestSource E c value).bind fun src =>
      src.definitions.find? (c.coversAt (positionOf value))) = foundDefinition E c value := by
    unfold requestSource foundDefinition definitionsOf
    cases documentPath E value with
    | none => rfl
    | some f =>
        rw [Option.bind_some, Option.bind_some]
        cases c.srcOf f <;> rfl
  unfold handleFindReferences
  rw [hfound]
  congr 1
  funext d
  exact List.map_filterMap

theorem handleListDocSymbols_eq {E : Env} {c : AnalyzerCtx} (hc : CtxWF E c)
    (value : Option Json) :
    handleListDocSymbols E c value = (documentPath E value).bind fun f =>
      if (c.sources.find? f).isSome then some ((definitionsOf c f).filterMap (docSymbolAt c))
      else none := by
  unfold handleListDocSymbols requestSource
  cases documentPath E value with
  | none => rfl
  | some f =>
      rw [Option.bind_some, Option.bind_some]
      cases hf : c.sources.find? f with
      | none => rw [srcOf_of_find?_none hf]; rfl
      | some id =>
          obtain ⟨src, hs, -⟩ := hc.sources f id hf
          rw [srcOf_of_find? hf, hs, definitionsOf_of_srcs hf hs, Option.map_some,
            Option.isSome_some, if_pos rfl]
          exact congrArg some List.map_filterMap

theorem handleListWorkspaceSymbols_eq {E : Env} {c : AnalyzerCtx} (hc : CtxWF E c)
    (value : Option Json) :
    handleListWorkspaceSymbols c value =
      (Json.getStr (Json.get value (ascii "query"))).map fun _ =>
        c.sources.keys.flatMap fun f =>
          (definitionsOf c f).filterMap (workspaceSymbolAt value c) := by
  unfold handleListWorkspaceSymbols
  cases hquery : Json.getStr (Json.get value (ascii "query")) with
  | none => rfl
  | some query =>
      rw [Option.map_some, Option.map_some]
      congr 1
      have hmatch : ∀ name : Str, matchesQuery value name =
          decide (query.takeWhile (· ≠ 0) <+: name) := by
        intro name
        unfold matchesQuery
        rw [hquery, Option.any_some]
      have hlist : ∀ ids : List SymId, ((c.nodes ids).filter fun node =>
          decide (query.takeWhile (· ≠ 0) <+: node.name)).map c.workspaceSymbol =
            ids.filterMap (workspaceSymbolAt value c) := by
        intro ids
        induction ids with
        | nil => rfl
        | cons id ids ih =>
            unfold AnalyzerCtx.nodes at ih ⊢
            rw [List.filterMap_cons, List.filterMap_cons]
            unfold workspaceSymbolAt
            cases c.syms[id]? with
            | none => exact ih
            | some node =>
                rw [Option.bind_some, hmatch, List.filter_cons]
                split
                · rw [List.map_cons, ih]
                  rfl
                · exact ih
      have hentry : ∀ e ∈ c.sources.entries, ∃ src : SrcNode, c.srcs[e.2]? = some src ∧
          definitionsOf c e.1 = src.definitions := by
        intro e he
        have hf := (c.sources.mem_entries_iff e.1 e.2).mp he
        obtain ⟨src, hs, -⟩ := hc.sources e.1 e.2 hf
        exact ⟨src, hs, definitionsOf_of_srcs hf hs⟩
      unfold AnalyzerCtx.sourceNodes Table.keys
      revert hentry
      induction c.sources.entries with
      | nil => exact fun _ => rfl
      | cons e es ih =>
          intro hentry
          obtain ⟨src, hs, hd⟩ := hentry e List.mem_cons_self
          rw [List.filterMap_cons, hs, List.map_cons, List.flatMap_cons, List.flatMap_cons, hd,
            ih fun e' he' => hentry e' (List.mem_cons_of_mem _ he'), ← hlist]

/-! ## Nodes stay where they are -/

/-- Every symbol has its source node. -/
def Placed (c : AnalyzerCtx) : Prop :=
  ∀ (id : SymId) (n : SymNode), c.syms[id]? = some n → ∃ src : SrcNode, c.srcs[n.source]? = some src

/-- The nodes of `c` are those of `c'` up to annotations and lists. -/
structure Extends (c c' : AnalyzerCtx) : Prop where
  syms : ∀ (id : SymId) (n : SymNode), c.syms[id]? = some n →
    ∃ n' : SymNode, c'.syms[id]? = some n' ∧ n'.name = n.name ∧ n'.range = n.range ∧
      n'.source = n.source
  srcs : ∀ (id : SrcId) (src : SrcNode), c.srcs[id]? = some src →
    ∃ src' : SrcNode, c'.srcs[id]? = some src' ∧ src'.uri = src.uri ∧
      src'.filename = src.filename

theorem extends_of_modify {c c' : AnalyzerCtx} (node : SrcId) (f : SrcNode → SrcNode)
    (hsrcs : c'.srcs = c.srcs.modify node f) (huri : ∀ src : SrcNode, (f src).uri = src.uri)
    (hname : ∀ src : SrcNode, (f src).filename = src.filename) (id : SrcId) (src : SrcNode)
    (h : c.srcs[id]? = some src) :
    ∃ src' : SrcNode, c'.srcs[id]? = some src' ∧ src'.uri = src.uri ∧
      src'.filename = src.filename := by
  refine ⟨_, hsrcs ▸ (getElem?_modify_iff _ _ _ _ _).mpr ⟨src, h, rfl⟩, ?_⟩
  split
  · exact ⟨huri src, hname src⟩
  · exact ⟨rfl, rfl⟩

theorem addSource_extends (E : Env) (c : AnalyzerCtx) (filename : Str) :
    Extends c (addSource E c filename) where
  syms := fun _ n h => ⟨n, h, rfl, rfl, rfl⟩
  srcs := fun _ src h => ⟨src, getElem?_alloc_old h, rfl, rfl⟩

theorem openSource_srcs (c : AnalyzerCtx) (entry node : SrcId) :
    (openSource c entry node).srcs =
      c.srcs.modify node fun src => { src with analyzed := true } := by
  unfold openSource
  split <;> rfl

theorem openSource_extends (c : AnalyzerCtx) (entry node : SrcId) :
    Extends c (openSource c entry node) where
  syms := fun _ n h => ⟨n, openSource_syms c entry node ▸ h, rfl, rfl, rfl⟩
  srcs := extends_of_modify node (fun src => { src with analyzed := true })
    (openSource_srcs c entry node) (fun _ => rfl) fun _ => rfl

theorem linkDefinition_extends (c : AnalyzerCtx) (node : SymNode) :
    Extends c (linkDefinition c node) where
  syms := fun _ n h => ⟨n, getElem?_alloc_old h, rfl, rfl, rfl⟩
  srcs := extends_of_modify node.source
    (fun src => { src with definitions := c.syms.length :: src.definitions }) rfl (fun _ => rfl)
    fun _ => rfl

theorem linkReference_extends (c : AnalyzerCtx) (node : SymNode) (d : SymId) :
    Extends c (linkReference c node d) where
  syms := fun _ n h => ⟨n, getElem?_alloc_old h, rfl, rfl, rfl⟩
  srcs := extends_of_modify node.source
    (fun src => { src with references := c.syms.length :: src.references }) rfl (fun _ => rfl)
    fun _ => rfl

theorem annotate_extends (c : AnalyzerCtx) (id : SymId) {f : SymNode → SymNode}
    (hf : Annotates f) : Extends c (annotate c id f) where
  syms := by
    intro i n h
    refine ⟨_, (getElem?_modify_iff _ _ _ _ _).mpr ⟨n, h, rfl⟩, ?_⟩
    split
    · obtain ⟨doc, sig, sem, he⟩ := hf n
      rw [he]
      exact ⟨rfl, rfl, rfl⟩
    · exact ⟨rfl, rfl, rfl⟩
  srcs := fun _ src h => ⟨src, h, rfl, rfl⟩

theorem CtxStep.extends {E : Env} {entry : SrcId} {c c' : AnalyzerCtx}
    (h : CtxStep E entry c c') : Extends c c' := by
  cases h with
  | addSource _ => exact addSource_extends E c _
  | openSource _ => exact openSource_extends c _ _
  | definition _ => exact linkDefinition_extends c _
  | reference _ _ => exact linkReference_extends c _ _
  | annotate _ _ hf => exact annotate_extends c _ hf

/-- A fresh symbol is linked to a source node, so symbols stay placed. -/
theorem CtxStep.placed {E : Env} {entry : SrcId} {c c' : AnalyzerCtx} (hc : CtxWF E c)
    (hp : Placed c) (h : CtxStep E entry c c') : Placed c' := by
  have hx := h.extends
  have hold : ∀ (n : SymNode), (∃ src : SrcNode, c.srcs[n.source]? = some src) →
      ∃ src : SrcNode, c'.srcs[n.source]? = some src := by
    rintro n ⟨src, hs⟩
    obtain ⟨src', hs', -⟩ := hx.srcs _ src hs
    exact ⟨src', hs'⟩
  have hfresh : ∀ {f : Str} {node : SymNode}, c.sources.find? f = some node.source →
      c'.syms = c.syms ++ [node] → Placed c' := by
    intro f node hf hsyms id n hn
    rw [hsyms] at hn
    rcases (getElem?_alloc_iff _ _ _ _).mp hn with hn | ⟨-, rfl⟩
    · exact hold n (hp id n hn)
    · obtain ⟨src, hs, -⟩ := hc.sources f _ hf
      exact hold n ⟨src, hs⟩
  cases h with
  | addSource _ => exact fun id n hn => hold n (hp id n hn)
  | openSource _ => exact fun id n hn => hold n (hp id n (openSource_syms c _ _ ▸ hn))
  | definition hf => exact hfresh hf rfl
  | reference hf _ => exact hfresh hf rfl
  | annotate _ _ hf =>
      intro id n hn
      obtain ⟨old, ho, rfl⟩ := (getElem?_modify_iff _ _ _ _ _).mp hn
      obtain ⟨src, hs⟩ := hp id old ho
      split
      · obtain ⟨doc, sig, sem, he⟩ := hf old
        rw [he]
        exact hold old ⟨src, hs⟩
      · exact hold old ⟨src, hs⟩

theorem CtxSteps.placed {E : Env} {entry : SrcId} {c c' : AnalyzerCtx} (hc : CtxWF E c)
    (hp : Placed c) (h : CtxSteps E entry c c') : Placed c' :=
  (CtxSteps.inv (P := fun x => CtxWF E x ∧ Placed x)
    (fun _ _ hx hs => ⟨hs.wf hx.1, hs.placed hx.1 hx.2⟩) ⟨hc, hp⟩ h).2

/-! ## What is read at a symbol that is there -/

section ReadAt

variable {c c' : AnalyzerCtx} {id : SymId} {n : SymNode}

theorem locationOf_extends (hp : Placed c) (hx : Extends c c') {n' : SymNode}
    (hn : c.syms[id]? = some n) (hr : n'.range = n.range) (hs : n'.source = n.source) :
    c'.locationOf n' = c.locationOf n ∧
      (c'.srcs[n'.source]?).elim [] SrcNode.filename =
        (c.srcs[n.source]?).elim [] SrcNode.filename := by
  obtain ⟨src, hsrc⟩ := hp id n hn
  obtain ⟨src', hsrc', huri, hname⟩ := hx.srcs _ src hsrc
  unfold AnalyzerCtx.locationOf AnalyzerCtx.uriOfSym
  rw [hs, hr, hsrc, hsrc', Option.elim_some, Option.elim_some, Option.elim_some,
    Option.elim_some, huri, hname]
  exact ⟨rfl, rfl⟩

theorem coversAt_extends (hx : Extends c c') (hn : c.syms[id]? = some n) (position : Position) :
    c'.coversAt position id = c.coversAt position id := by
  obtain ⟨n', hn', -, hr, -⟩ := hx.syms id n hn
  rw [coversAt_of_some hn, coversAt_of_some hn', hr]

theorem locationAt_extends (hp : Placed c) (hx : Extends c c') (hn : c.syms[id]? = some n) :
    locationAt c' id = locationAt c id := by
  obtain ⟨n', hn', -, hr, hs⟩ := hx.syms id n hn
  unfold locationAt
  rw [hn, hn', Option.map_some, Option.map_some, (locationOf_extends hp hx hn hr hs).1]

/-- A hover also reads what annotations set. -/
theorem hoverAt_extends (E : Env) (hp : Placed c) (hx : Extends c c') (hn : c.syms[id]? = some n)
    (htext : ∀ n' : SymNode, c'.syms[id]? = some n' →
      n'.signature = n.signature ∧ n'.documentation = n.documentation) :
    hoverAt E c' id = hoverAt E c id := by
  obtain ⟨n', hn', hname, hr, hs⟩ := hx.syms id n hn
  obtain ⟨hsig, hdoc⟩ := htext n' hn'
  obtain ⟨hlocation, hfile⟩ := locationOf_extends hp hx hn hr hs
  have huri : c'.uriOfSym n' = c.uriOfSym n := congrArg LocationReply.uri hlocation
  unfold hoverAt
  rw [hn, hn', Option.bind_some, Option.bind_some, huri, hfile, hr]
  unfold hoverText
  rw [hsig, hdoc, hname]

theorem docSymbolAt_extends (hx : Extends c c') (hn : c.syms[id]? = some n)
    (hkind : ∀ n' : SymNode, c'.syms[id]? = some n' → n'.semantics = n.semantics) :
    docSymbolAt c' id = docSymbolAt c id := by
  obtain ⟨n', hn', hname, hr, -⟩ := hx.syms id n hn
  unfold docSymbolAt docSymbol
  rw [hn, hn', Option.map_some, Option.map_some, hname, hr, hkind n' hn']

/-- A symbol whose name does not match is not read. -/
theorem workspaceSymbolAt_extends (value : Option Json) (hp : Placed c) (hx : Extends c c')
    (hn : c.syms[id]? = some n)
    (hkind : matchesQuery value n.name = true →
      ∀ n' : SymNode, c'.syms[id]? = some n' → n'.semantics = n.semantics) :
    workspaceSymbolAt value c' id = workspaceSymbolAt value c id := by
  obtain ⟨n', hn', hname, hr, hs⟩ := hx.syms id n hn
  unfold workspaceSymbolAt AnalyzerCtx.workspaceSymbol
  rw [hn, hn', Option.bind_some, Option.bind_some, hname, (locationOf_extends hp hx hn hr hs).1]
  by_cases hm : matchesQuery value n.name = true
  · rw [hkind hm n' hn']
  · rw [if_neg hm, if_neg hm]

end ReadAt

/-! ## Answers that stay -/

theorem exists_sym_of_reference {E : Env} {c : AnalyzerCtx} (hc : CtxWF E c) {f : Str} {id : SymId}
    (h : id ∈ referencesOf c f) : ∃ n : SymNode, c.syms[id]? = some n := by
  unfold referencesOf at h
  cases hf : c.sources.find? f with
  | none =>
      rw [srcOf_of_find?_none hf] at h
      exact absurd h List.not_mem_nil
  | some i =>
      obtain ⟨src, hs, -⟩ := hc.sources f i hf
      rw [srcOf_of_find? hf, hs] at h
      obtain ⟨n, hn, -⟩ := (hc.references i src hs).2 id h
      exact ⟨n, hn⟩

theorem exists_sym_of_definition {E : Env} {c : AnalyzerCtx} (hc : CtxWF E c) {f : Str}
    {id : SymId} (h : id ∈ definitionsOf c f) :
    ∃ n : SymNode, c.syms[id]? = some n ∧ c.sources.find? f = some n.source :=
  (linked_definitionsOf hc f).2 id h

theorem exists_sym_of_lt {c : AnalyzerCtx} {id : SymId} (h : id < c.syms.length) :
    ∃ n : SymNode, c.syms[id]? = some n := ⟨_, List.getElem?_eq_getElem h⟩

theorem findDefinition_lt {E : Env} {c : AnalyzerCtx} (hc : CtxWF E c) {value : Option Json}
    {d : SymId} (h : findDefinition E c value = some d) : d < c.syms.length := by
  unfold findDefinition at h
  obtain ⟨r, -, hd⟩ := Option.bind_eq_some_iff.mp h
  have hadj := (c.symGraph.mem_outEdges r d).mp (List.mem_of_head? hd)
  exact (hc.symEdges r d hadj).2

section Stay

variable {E : Env} {c c' : AnalyzerCtx} {value : Option Json}

theorem find?_coversAt_extends (hx : Extends c c') (ids : List SymId)
    (hv : ∀ id ∈ ids, ∃ n : SymNode, c.syms[id]? = some n) (position : Position) :
    ids.find? (c'.coversAt position) = ids.find? (c.coversAt position) := by
  refine List.find?_congr fun id hid => ?_
  obtain ⟨n, hn⟩ := hv id hid
  exact coversAt_extends hx hn position

theorem findDefinition_stays (hc : CtxWF E c) (hx : Extends c c')
    (hrefs : ∀ f, referencesOf c' f = referencesOf c f)
    (hout : ∀ r < c.syms.length, c'.symGraph.outEdges r = c.symGraph.outEdges r) :
    findDefinition E c' value = findDefinition E c value := by
  unfold findDefinition
  rw [findReference_eq, findReference_eq]
  cases documentPath E value with
  | none => rfl
  | some f =>
      rw [Option.bind_some, Option.bind_some, hrefs,
        find?_coversAt_extends hx _ (fun id hid => exists_sym_of_reference hc hid)]
      cases hr : (referencesOf c f).find? (c.coversAt (positionOf value)) with
      | none => rfl
      | some r =>
          obtain ⟨n, hn⟩ := exists_sym_of_reference hc (List.mem_of_find?_eq_some hr)
          rw [Option.bind_some, Option.bind_some, hout r (lt_length_of_getElem? hn)]

theorem foundDefinition_stays (hc : CtxWF E c) (hx : Extends c c')
    (hdefs : ∀ f, definitionsOf c' f = definitionsOf c f) :
    foundDefinition E c' value = foundDefinition E c value := by
  unfold foundDefinition
  congr 1
  funext f
  rw [hdefs]
  refine find?_coversAt_extends hx _ (fun id hid => ?_) _
  obtain ⟨n, hn, -⟩ := exists_sym_of_definition hc hid
  exact ⟨n, hn⟩

theorem handleFindDefinition_stays (hc : CtxWF E c) (hp : Placed c) (hx : Extends c c')
    (hfind : findDefinition E c' value = findDefinition E c value) :
    handleFindDefinition E c' value = handleFindDefinition E c value := by
  rw [handleFindDefinition_eq, handleFindDefinition_eq, hfind]
  cases hd : findDefinition E c value with
  | none => rfl
  | some d =>
      obtain ⟨n, hn⟩ := exists_sym_of_lt (findDefinition_lt hc hd)
      exact locationAt_extends hp hx hn

theorem handleHover_stays (hc : CtxWF E c) (hp : Placed c) (hx : Extends c c')
    (hfind : findDefinition E c' value = findDefinition E c value)
    (htext : ∀ d, findDefinition E c value = some d → ∀ n n' : SymNode, c.syms[d]? = some n →
      c'.syms[d]? = some n' → n'.signature = n.signature ∧ n'.documentation = n.documentation) :
    handleHover E c' value = handleHover E c value := by
  rw [handleHover_eq, handleHover_eq, hfind]
  cases hd : findDefinition E c value with
  | none => rfl
  | some d =>
      obtain ⟨n, hn⟩ := exists_sym_of_lt (findDefinition_lt hc hd)
      exact hoverAt_extends E hp hx hn fun n' hn' => htext d hd n n' hn hn'

theorem handleFindReferences_stays (hc : CtxWF E c) (hp : Placed c) (hx : Extends c c')
    (hfound : foundDefinition E c' value = foundDefinition E c value)
    (hin : ∀ d, foundDefinition E c value = some d →
      c'.symGraph.inEdges d = c.symGraph.inEdges d) :
    handleFindReferences E c' value = handleFindReferences E c value := by
  rw [handleFindReferences_eq, handleFindReferences_eq, hfound]
  cases hd : foundDefinition E c value with
  | none => rfl
  | some d =>
      rw [Option.map_some, Option.map_some, hin d hd]
      refine congrArg some (List.filterMap_congr fun r hr => ?_)
      have hlt := (hc.symEdges r d ((c.symGraph.mem_inEdges r d).mp hr)).1
      obtain ⟨n, hn⟩ := exists_sym_of_lt hlt
      exact locationAt_extends hp hx hn

theorem handleListDocSymbols_stays (hc : CtxWF E c) (hc' : CtxWF E c') (hx : Extends c c')
    (hopen : ∀ f, documentPath E value = some f →
      (c'.sources.find? f).isSome = (c.sources.find? f).isSome)
    (hdefs : ∀ f, documentPath E value = some f → definitionsOf c' f = definitionsOf c f)
    (hkind : ∀ f, documentPath E value = some f → ∀ id ∈ definitionsOf c f, ∀ n n' : SymNode,
      c.syms[id]? = some n → c'.syms[id]? = some n' → n'.semantics = n.semantics) :
    handleListDocSymbols E c' value = handleListDocSymbols E c value := by
  rw [handleListDocSymbols_eq hc, handleListDocSymbols_eq hc']
  cases hpath : documentPath E value with
  | none => rfl
  | some f =>
      have hlist : (definitionsOf c f).filterMap (docSymbolAt c') =
          (definitionsOf c f).filterMap (docSymbolAt c) := by
        refine List.filterMap_congr fun id hid => ?_
        obtain ⟨n, hn, -⟩ := exists_sym_of_definition hc hid
        exact docSymbolAt_extends hx hn fun n' hn' => hkind f hpath id hid n n' hn hn'
      rw [Option.bind_some, Option.bind_some, hopen f hpath, hdefs f hpath, hlist]

theorem handleListWorkspaceSymbols_stays (hc : CtxWF E c) (hc' : CtxWF E c')
    (hkeys : ∃ new, c'.sources.keys = c.sources.keys ++ new ∧ ∀ f ∈ new, definitionsOf c' f = [])
    (hlists : ∀ f, (definitionsOf c' f).filterMap (workspaceSymbolAt value c') =
      (definitionsOf c f).filterMap (workspaceSymbolAt value c)) :
    handleListWorkspaceSymbols c' value = handleListWorkspaceSymbols c value := by
  rw [handleListWorkspaceSymbols_eq hc, handleListWorkspaceSymbols_eq hc']
  congr 1
  funext _
  obtain ⟨new, hnew, hempty⟩ := hkeys
  have hnone : new.flatMap (fun f =>
      (definitionsOf c' f).filterMap (workspaceSymbolAt value c')) = [] := by
    rw [List.flatMap_eq_nil_iff]
    intro f hf
    rw [hempty f hf]
    rfl
  rw [hnew, List.flatMap_append, hnone, List.append_nil]
  congr 1
  funext f
  exact hlists f

end Stay

/-! ## Changes and the requests they affect -/

/-- A change to the current context, as far as a request can see it.

    * `opened` gives a file its node, `listed` puts a definition in front of the list of a file
    * `annotated` is a call of `buxn_ls_handle_annotation` that writes to a definition
    * `connected` lists a reference in a file and joins it to a definition -/
inductive Change where
  | opened (f : Str)
  | listed (f name : Str) (range : Range)
  | annotated (id : SymId) (anno : Option AnnoType)
  | connected (f : Str) (range : Range) (d : SymId)

/-- The annotation writes `semantics`. -/
def setsKind (anno : Option AnnoType) : Bool :=
  anno = none ∨ anno = some .buxnEnum

/-- The annotation writes `signature` or `documentation`. -/
def setsText (anno : Option AnnoType) : Bool :=
  anno = none ∨ anno = some .doc

/-- The position of the request lies in the range of a symbol in the file `f`. -/
def pointsAt (E : Env) (value : Option Json) (f : Str) (range : Range) : Bool :=
  documentPath E value = some f ∧ range.covers (positionOf value) = true

/-- The request, handled in the context `c`, reads what the change touches. A reference that
    leads to what the request finds anyway does not count. -/
def affects (E : Env) (c : AnalyzerCtx) (query : Query) (value : Option Json) : Change → Bool
  | .opened f => query = .documentSymbol ∧ documentPath E value = some f
  | .listed f name range =>
    match query with
    | .definition | .hover => false
    | .references => pointsAt E value f range
    | .documentSymbol => documentPath E value = some f
    | .workspaceSymbol => matchesQuery value name
  | .annotated id anno =>
    match query with
    | .definition | .references => false
    | .hover => setsText anno ∧ findDefinition E c value = some id
    | .documentSymbol => setsKind anno ∧ (c.syms[id]?).any fun n =>
        (documentPath E value).bind c.sources.find? = some n.source
    | .workspaceSymbol => setsKind anno ∧ (c.syms[id]?).any fun n =>
        matchesQuery value n.name
  | .connected f range d =>
    match query with
    | .definition => pointsAt E value f range ∧ locationAt c d ≠ handleFindDefinition E c value
    | .hover => pointsAt E value f range ∧ hoverAt E c d ≠ handleHover E c value
    | .references => foundDefinition E c value = some d
    | .documentSymbol | .workspaceSymbol => false

section Unaffected

variable {E : Env} {c : AnalyzerCtx} {query : Query} {value : Option Json}

/-- Opening a file changes no symbol, no list and no edge between symbols. -/
theorem answer_of_same_syms {c' : AnalyzerCtx} (hc : CtxWF E c) (hc' : CtxWF E c')
    (hp : Placed c) (hx : Extends c c') (hsyms : c'.syms = c.syms)
    (hgraph : c'.symGraph = c.symGraph) (hdefs : ∀ f, definitionsOf c' f = definitionsOf c f)
    (hrefs : ∀ f, referencesOf c' f = referencesOf c f)
    (hkeys : ∃ new, c'.sources.keys = c.sources.keys ++ new ∧ ∀ f ∈ new, definitionsOf c' f = [])
    (hopen : query = .documentSymbol → ∀ f, documentPath E value = some f →
      (c'.sources.find? f).isSome = (c.sources.find? f).isSome) :
    answer E c' query value = answer E c query value := by
  have hfind : findDefinition E c' value = findDefinition E c value :=
    findDefinition_stays hc hx hrefs fun r _ => by rw [hgraph]
  have hsame : ∀ (id : SymId) (n n' : SymNode), c.syms[id]? = some n →
      c'.syms[id]? = some n' → n' = n := by
    intro id n n' hn hn'
    rw [hsyms] at hn'
    exact Option.some.inj (hn'.symm.trans hn)
  cases query with
  | definition => exact congrArg Reply.location (handleFindDefinition_stays hc hp hx hfind)
  | references =>
      exact congrArg Reply.locations (handleFindReferences_stays hc hp hx
        (foundDefinition_stays hc hx hdefs) fun d _ => by rw [hgraph])
  | hover =>
      refine congrArg Reply.hover (handleHover_stays hc hp hx hfind fun d _ n n' hn hn' => ?_)
      rw [hsame d n n' hn hn']
      exact ⟨rfl, rfl⟩
  | documentSymbol =>
      exact congrArg Reply.docSymbols (handleListDocSymbols_stays hc hc' hx (hopen rfl)
        (fun g _ => hdefs g) fun g _ id _ n n' hn hn' => by rw [hsame id n n' hn hn'])
  | workspaceSymbol =>
      refine congrArg Reply.workspaceSymbols
        (handleListWorkspaceSymbols_stays hc hc' hkeys fun g => ?_)
      rw [hdefs]
      refine List.filterMap_congr fun id hid => ?_
      obtain ⟨n, hn, -⟩ := exists_sym_of_definition hc hid
      exact workspaceSymbolAt_extends value hp hx hn fun _ n' hn' => by rw [hsame id n n' hn hn']

theorem answer_addSource (hc : CtxWF E c) (hp : Placed c) {f : Str}
    (hnew : c.sources.find? f = none) (h : affects E c query value (.opened f) = false) :
    answer E (addSource E c f) query value = answer E c query value := by
  have hdefs := addSource_definitionsOf hc hnew
  refine answer_of_same_syms hc (addSource_wf hc hnew) hp (addSource_extends E c f) rfl rfl hdefs
    (linksOf_addSource hc rfl hnew) ⟨[f], ?_, fun g hg => ?_⟩ fun hq g hg => ?_
  · have hkeys : f ∉ c.sources.keys := (c.sources.find?_eq_none_iff f).mp hnew
    exact (Table.keys_put _ _ _).trans (by rw [if_neg hkeys])
  · rw [List.mem_singleton.mp hg, hdefs]
    unfold definitionsOf
    rw [srcOf_of_find?_none hnew]
    rfl
  · have hne : f ≠ g := by
      rintro rfl
      simp [affects, hq, hg] at h
    exact congrArg Option.isSome (Table.find?_put_ne _ _ hne)

theorem answer_openSource (hc : CtxWF E c) (hp : Placed c) (entry node : SrcId) :
    answer E (openSource c entry node) query value = answer E c query value := by
  have hsources := openSource_sources c entry node
  have hgraph : (openSource c entry node).symGraph = c.symGraph := by
    unfold openSource
    split <;> rfl
  refine answer_of_same_syms hc (openSource_wf hc entry node) hp (openSource_extends c entry node)
    (openSource_syms c entry node) hgraph (openSource_definitionsOf c entry node)
    (linksOf_modify c node (fun src => { src with analyzed := true }) (fun _ => rfl) _ hsources
      (openSource_srcs c entry node))
    ⟨[], by rw [hsources, List.append_nil], fun g hg => absurd hg List.not_mem_nil⟩
    fun _ g _ => by rw [hsources]

theorem answer_linkDefinition (hc : CtxWF E c) (hp : Placed c) {f : Str} {node : SymNode}
    (hf : c.sources.find? f = some node.source)
    (h : affects E c query value (.listed f node.name node.range) = false) :
    answer E (linkDefinition c node) query value = answer E c query value := by
  have hx := linkDefinition_extends c node
  have hc' := linkDefinition_wf hc node
  have hdefs := linkDefinition_definitionsOf hc hf
  have hrefs : ∀ g, referencesOf (linkDefinition c node) g = referencesOf c g :=
    linksOf_modify c node.source
      (fun src => { src with definitions := c.syms.length :: src.definitions }) (fun _ => rfl)
      (linkDefinition c node) rfl rfl
  have hfind : findDefinition E (linkDefinition c node) value = findDefinition E c value :=
    findDefinition_stays hc hx hrefs fun _ _ => rfl
  have hold : ∀ (id : SymId) (n n' : SymNode), c.syms[id]? = some n →
      (linkDefinition c node).syms[id]? = some n' → n' = n := fun id n n' hn hn' =>
    Option.some.inj (hn'.symm.trans (getElem?_alloc_old hn))
  have hnew : (linkDefinition c node).syms[c.syms.length]? = some node :=
    (getElem?_alloc_iff _ _ _ _).mpr (Or.inr ⟨rfl, rfl⟩)
  cases query with
  | definition => exact congrArg Reply.location (handleFindDefinition_stays hc hp hx hfind)
  | references =>
      refine congrArg Reply.locations (handleFindReferences_stays hc hp hx ?_ fun _ _ => rfl)
      -- a new node that does not cover the position is passed over
      unfold foundDefinition
      cases hpath : documentPath E value with
      | none => rfl
      | some g =>
          have hstay := find?_coversAt_extends hx (definitionsOf c g) (fun id hid => by
            obtain ⟨n, hn, -⟩ := exists_sym_of_definition hc hid
            exact ⟨n, hn⟩) (positionOf value)
          rw [Option.bind_some, Option.bind_some, hdefs]
          split
          · rename_i hg
            subst hg
            have hcover : (linkDefinition c node).coversAt (positionOf value) c.syms.length =
                false := by
              rw [coversAt_of_some hnew]
              simpa [affects, pointsAt, hpath] using h
            rw [List.find?_cons_of_neg (by rw [hcover]; exact Bool.false_ne_true), hstay]
          · exact hstay
  | hover =>
      refine congrArg Reply.hover (handleHover_stays hc hp hx hfind fun d _ n n' hn hn' => ?_)
      rw [hold d n n' hn hn']
      exact ⟨rfl, rfl⟩
  | documentSymbol =>
      refine congrArg Reply.docSymbols (handleListDocSymbols_stays hc hc' hx (fun _ _ => rfl)
        (fun g hg => ?_) fun g _ id _ n n' hn hn' => by rw [hold id n n' hn hn'])
      have hne : g ≠ f := by
        rintro rfl
        simp [affects, hg] at h
      rw [hdefs, if_neg hne]
  | workspaceSymbol =>
      refine congrArg Reply.workspaceSymbols (handleListWorkspaceSymbols_stays hc hc'
        ⟨[], (List.append_nil _).symm, fun g hg => absurd hg List.not_mem_nil⟩ fun g => ?_)
      have hlist : (definitionsOf c g).filterMap (workspaceSymbolAt value (linkDefinition c node)) =
          (definitionsOf c g).filterMap (workspaceSymbolAt value c) := by
        refine List.filterMap_congr fun id hid => ?_
        obtain ⟨n, hn, -⟩ := exists_sym_of_definition hc hid
        exact workspaceSymbolAt_extends value hp hx hn fun _ n' hn' => by
          rw [hold id n n' hn hn']
      have hskip : workspaceSymbolAt value (linkDefinition c node) c.syms.length = none := by
        have hno : matchesQuery value node.name = false := h
        unfold workspaceSymbolAt
        rw [hnew, Option.bind_some, hno]
        rfl
      rw [hdefs]
      split
      · rw [List.filterMap_cons_none hskip, hlist]
      · exact hlist

/-- The request points at the new reference, or finds what it found before. -/
theorem findDefinition_linkReference (hc : CtxWF E c) {f : Str} {node : SymNode}
    (hf : c.sources.find? f = some node.source) (d : SymId) (value : Option Json) :
    (pointsAt E value f node.range = true ∧
      findDefinition E (linkReference c node d) value = some d) ∨
    (pointsAt E value f node.range = false ∧
      findDefinition E (linkReference c node d) value = findDefinition E c value) := by
  have hx := linkReference_extends c node d
  have hrefs : ∀ g, referencesOf (linkReference c node d) g =
      if g = f then c.syms.length :: referencesOf c g else referencesOf c g :=
    linksOf_link hc hf (fun src => { src with references := c.syms.length :: src.references })
      (fun _ => rfl) (linkReference c node d) rfl rfl
  have hout : ∀ r < c.syms.length,
      (linkReference c node d).symGraph.outEdges r = c.symGraph.outEdges r := by
    intro r hr
    have hne : c.syms.length ≠ r := by omega
    exact (Lib.Digraph.outEdges_addEdge _ _ _ _).trans (if_neg hne)
  have hnew : (linkReference c node d).syms[c.syms.length]? = some node :=
    (getElem?_alloc_iff _ _ _ _).mpr (Or.inr ⟨rfl, rfl⟩)
  unfold findDefinition pointsAt
  rw [findReference_eq, findReference_eq]
  cases hpath : documentPath E value with
  | none => exact Or.inr ⟨by simp, rfl⟩
  | some g =>
      rw [Option.bind_some, Option.bind_some, hrefs]
      have hstay := find?_coversAt_extends hx (referencesOf c g)
        (fun id hid => exists_sym_of_reference hc hid) (positionOf value)
      have htail : (((referencesOf c g).find?
          ((linkReference c node d).coversAt (positionOf value))).bind fun r =>
            ((linkReference c node d).symGraph.outEdges r).head?) =
          ((referencesOf c g).find? (c.coversAt (positionOf value))).bind fun r =>
            (c.symGraph.outEdges r).head? := by
        rw [hstay]
        cases hr : (referencesOf c g).find? (c.coversAt (positionOf value)) with
        | none => rfl
        | some r =>
            obtain ⟨n, hn⟩ := exists_sym_of_reference hc (List.mem_of_find?_eq_some hr)
            rw [Option.bind_some, Option.bind_some, hout r (lt_length_of_getElem? hn)]
      by_cases hg : g = f
      · subst hg
        rw [if_pos rfl, List.find?_cons, coversAt_of_some hnew]
        cases hcover : node.range.covers (positionOf value) with
        | true =>
            refine Or.inl ⟨by simp, ?_⟩
            rw [Option.bind_some]
            show ((c.symGraph.addEdge c.syms.length d).outEdges c.syms.length).head? = some d
            rw [Lib.Digraph.outEdges_addEdge, if_pos rfl]
            rfl
        | false => exact Or.inr ⟨by simp, htail⟩
      · rw [if_neg hg]
        exact Or.inr ⟨by simp [hg], htail⟩

theorem answer_linkReference (hc : CtxWF E c) (hp : Placed c) {f : Str} {node : SymNode}
    {d : SymId} (hf : c.sources.find? f = some node.source) (hd : d < c.syms.length)
    (h : affects E c query value (.connected f node.range d) = false) :
    answer E (linkReference c node d) query value = answer E c query value := by
  have hx := linkReference_extends c node d
  have hc' := linkReference_wf hc node hd
  have hdefs := linkReference_definitionsOf c node d
  have hold : ∀ (id : SymId) (n n' : SymNode), c.syms[id]? = some n →
      (linkReference c node d).syms[id]? = some n' → n' = n := fun id n n' hn hn' =>
    Option.some.inj (hn'.symm.trans (getElem?_alloc_old hn))
  obtain ⟨target, htarget⟩ := exists_sym_of_lt hd
  have hlocation := locationAt_extends hp hx htarget
  have hhover : hoverAt E (linkReference c node d) d = hoverAt E c d :=
    hoverAt_extends E hp hx htarget fun n' hn' => by
      rw [hold d target n' htarget hn']
      exact ⟨rfl, rfl⟩
  have hfind := findDefinition_linkReference hc hf d value
  cases query with
  | definition =>
      refine congrArg Reply.location ?_
      obtain ⟨hpoint, hfind⟩ | ⟨-, hfind⟩ := hfind
      · rw [handleFindDefinition_eq, hfind, Option.bind_some, hlocation]
        simpa [affects, hpoint] using h
      · exact handleFindDefinition_stays hc hp hx hfind
  | references =>
      refine congrArg Reply.locations (handleFindReferences_stays hc hp hx
        (foundDefinition_stays hc hx hdefs) fun d' hd' => ?_)
      have hne : d ≠ d' := by
        rintro rfl
        simp [affects, hd'] at h
      exact (Lib.Digraph.inEdges_addEdge _ _ _ _).trans (if_neg hne)
  | hover =>
      refine congrArg Reply.hover ?_
      obtain ⟨hpoint, hfind⟩ | ⟨-, hfind⟩ := hfind
      · rw [handleHover_eq, hfind, Option.bind_some, hhover]
        simpa [affects, hpoint] using h
      · refine handleHover_stays hc hp hx hfind fun d' _ n n' hn hn' => ?_
        rw [hold d' n n' hn hn']
        exact ⟨rfl, rfl⟩
  | documentSymbol =>
      exact congrArg Reply.docSymbols (handleListDocSymbols_stays hc hc' hx (fun _ _ => rfl)
        (fun g _ => hdefs g) fun g _ id _ n n' hn hn' => by rw [hold id n n' hn hn'])
  | workspaceSymbol =>
      refine congrArg Reply.workspaceSymbols (handleListWorkspaceSymbols_stays hc hc'
        ⟨[], (List.append_nil _).symm, fun g hg => absurd hg List.not_mem_nil⟩ fun g => ?_)
      rw [hdefs]
      refine List.filterMap_congr fun id hid => ?_
      obtain ⟨n, hn, -⟩ := exists_sym_of_definition hc hid
      exact workspaceSymbolAt_extends value hp hx hn fun _ n' hn' => by
        rw [hold id n n' hn hn']

/-- An annotation that is not of the kind that a request reads, or of another symbol. -/
theorem answer_annotate (hc : CtxWF E c) (hp : Placed c) {id : SymId}
    {anno : Option AnnoType} {g : SymNode → SymNode} (hg : Annotates g)
    (hkind : setsKind anno = false → ∀ n, (g n).semantics = n.semantics)
    (htext : setsText anno = false → ∀ n,
      (g n).signature = n.signature ∧ (g n).documentation = n.documentation)
    (h : affects E c query value (.annotated id anno) = false) :
    answer E (annotate c id g) query value = answer E c query value := by
  have hx := annotate_extends c id hg
  have hc' := annotate_wf hc id hg
  have hdefs : ∀ f, definitionsOf (annotate c id g) f = definitionsOf c f := fun _ => rfl
  have hfind : findDefinition E (annotate c id g) value = findDefinition E c value :=
    findDefinition_stays hc hx (fun _ => rfl) fun _ _ => rfl
  have hnode : ∀ (i : SymId) (n n' : SymNode), c.syms[i]? = some n →
      (annotate c id g).syms[i]? = some n' → n' = if id = i then g n else n := by
    intro i n n' hn hn'
    obtain ⟨x, hx, rfl⟩ := (getElem?_modify_iff _ _ _ _ _).mp hn'
    rw [hn] at hx
    rw [Option.some.inj hx]
  cases query with
  | definition => exact congrArg Reply.location (handleFindDefinition_stays hc hp hx hfind)
  | references =>
      exact congrArg Reply.locations (handleFindReferences_stays hc hp hx
        (foundDefinition_stays hc hx hdefs) fun _ _ => rfl)
  | hover =>
      refine congrArg Reply.hover (handleHover_stays hc hp hx hfind fun d hd n n' hn hn' => ?_)
      rw [hnode d n n' hn hn']
      split
      · rename_i he
        subst he
        refine htext ?_ n
        simpa [affects, hd] using h
      · exact ⟨rfl, rfl⟩
  | documentSymbol =>
      refine congrArg Reply.docSymbols (handleListDocSymbols_stays hc hc' hx (fun _ _ => rfl)
        (fun f _ => hdefs f) fun f hf i hi n n' hn hn' => ?_)
      rw [hnode i n n' hn hn']
      split
      · rename_i he
        subst he
        obtain ⟨m, hm, hsource⟩ := exists_sym_of_definition hc hi
        obtain rfl : m = n := Option.some.inj (hm.symm.trans hn)
        refine hkind ?_ m
        simpa [affects, hm, hf, hsource] using h
      · rfl
  | workspaceSymbol =>
      refine congrArg Reply.workspaceSymbols (handleListWorkspaceSymbols_stays hc hc'
        ⟨[], (List.append_nil _).symm, fun f hf => absurd hf List.not_mem_nil⟩ fun f => ?_)
      rw [hdefs]
      refine List.filterMap_congr fun i hi => ?_
      obtain ⟨n, hn, -⟩ := exists_sym_of_definition hc hi
      refine workspaceSymbolAt_extends value hp hx hn fun hmatch n' hn' => ?_
      rw [hnode i n n' hn hn']
      split
      · rename_i he
        subst he
        refine hkind ?_ n
        simpa [affects, hn, hmatch] using h
      · rfl

end Unaffected

/-! ## Callbacks -/

/-- The changes of a callback. What annotates a definition that the callback itself lists goes
    with that listing. -/
def eventChanges (E : Env) (a : Analyzer) (ctx : AsmCtx) : Event → List Change
  | .fopen docs filename disk =>
    if (findContent a docs disk filename.chars).isSome ∧
        a.current.sources.find? filename.chars = none then [.opened filename.chars]
    else []
  | .putSymbol _ sym annos =>
    if ctx.repeats sym then []
    else if isDefinition sym ∧ ¬ sym.nameIsGenerated then
      [.listed sym.region.filename.chars sym.name
        (convertRange E a sym.region.filename.chars sym.region.range).2]
    else
      ctx.currentSymNode.toList.flatMap fun id =>
        annos.map fun call => .annotated id call.annotation
  | _ => []

/-- What a call of `buxn_ls_handle_annotation` writes to the most recent symbol. -/
theorem handleAnnotation_writes {p p' : Pass} {call : AnnoCall}
    (h : handleAnnotation p call = some p') :
    p'.ctx.currentSymNode = p.ctx.currentSymNode ∧
      (p'.analyzer.current = p.analyzer.current ∨
        ∃ id g, p.ctx.currentSymNode = some id ∧ Annotates g ∧
          (setsKind call.annotation = false → ∀ n, (g n).semantics = n.semantics) ∧
          (setsText call.annotation = false → ∀ n,
            (g n).signature = n.signature ∧ (g n).documentation = n.documentation) ∧
          p'.analyzer.current = annotate p.analyzer.current id g) := by
  unfold handleAnnotation at h
  split at h
  · rename_i hanno
    obtain ⟨id, hid, rfl⟩ := Option.map_eq_some_iff.mp h
    refine ⟨rfl, Or.inr ⟨id, fun n =>
      { n with semantics := .asSubroutine, signature := sliceFile p.analyzer call.region }, hid,
      fun n => ⟨_, _, _, rfl⟩, fun hk => ?_, fun ht => ?_, rfl⟩⟩
    · simp [setsKind, hanno] at hk
    · simp [setsText, hanno] at ht
  · rename_i anno hanno
    split at h
    · cases h
    · split at h
      · obtain ⟨id, hid, rfl⟩ := Option.map_eq_some_iff.mp h
        refine ⟨rfl, Or.inr ⟨id, fun n =>
          { n with documentation := sliceFile p.analyzer call.region }, hid,
          fun n => ⟨_, _, _, rfl⟩, fun _ _ => rfl, fun ht => ?_, rfl⟩⟩
        simp [setsText, hanno] at ht
      · cases h
        exact ⟨rfl, Or.inl rfl⟩
      · cases h
        exact ⟨rfl, Or.inl rfl⟩
      · split at h
        · cases h
        · rename_i id hid
          cases h
          refine ⟨rfl, Or.inr ⟨id, fun n => { n with semantics := .asEnum }, hid,
            fun n => ⟨_, _, _, rfl⟩, fun hk => ?_, fun _ _ => ⟨rfl, rfl⟩, rfl⟩⟩
          simp [setsKind, hanno] at hk

section Callbacks

variable {E : Env} {query : Query} {value : Option Json}

/-- An annotation does not change which requests an annotation affects. -/
theorem affects_annotate {c : AnalyzerCtx} (hc : CtxWF E c) {id : SymId} {g : SymNode → SymNode}
    (hg : Annotates g) (i : SymId) (anno : Option AnnoType) :
    affects E (annotate c id g) query value (.annotated i anno) =
      affects E c query value (.annotated i anno) := by
  have hx := annotate_extends c id hg
  have hfind : findDefinition E (annotate c id g) value = findDefinition E c value :=
    findDefinition_stays hc hx (fun _ => rfl) fun _ _ => rfl
  have hany : ∀ p : SymNode → Bool,
      (∀ n n' : SymNode, n'.name = n.name → n'.source = n.source → p n' = p n) →
        ((annotate c id g).syms[i]?).any p = (c.syms[i]?).any p := by
    intro p hp
    cases hn : c.syms[i]? with
    | none =>
        have hnone : (annotate c id g).syms[i]? = none := by
          rw [List.getElem?_eq_none_iff] at hn ⊢
          simpa [annotate] using hn
        rw [hnone]
    | some n =>
        obtain ⟨n', hn', hname, -, hsource⟩ := hx.syms i n hn
        rw [hn', Option.any_some, Option.any_some, hp n n' hname hsource]
  cases query with
  | definition => rfl
  | references => rfl
  | hover => simp only [affects, hfind]
  | documentSymbol =>
      have h := hany (fun n => (documentPath E value).bind c.sources.find? = some n.source)
        fun n n' _ hs => by rw [hs]
      simp only [affects]
      rw [← h]
      rfl
  | workspaceSymbol =>
      have h := hany (fun n => matchesQuery value n.name) fun n n' hn _ => by rw [hn]
      simp only [affects]
      rw [← h]

/-- The annotations of one symbol. -/
theorem answer_annotations {p p' : Pass} {annos : List AnnoCall} (hp : PassOK E p)
    (hplaced : Placed p.analyzer.current) (h : annos.foldlM handleAnnotation p = some p')
    (hno : ∀ id, p.ctx.currentSymNode = some id → ∀ call ∈ annos,
      affects E p.analyzer.current query value (.annotated id call.annotation) = false) :
    answer E p'.analyzer.current query value = answer E p.analyzer.current query value := by
  refine (foldlM_inv (P := fun q => (PassOK E q ∧ Placed q.analyzer.current) ∧
    q.ctx.currentSymNode = p.ctx.currentSymNode ∧
    (∀ i anno, affects E q.analyzer.current query value (.annotated i anno) =
      affects E p.analyzer.current query value (.annotated i anno)) ∧
    answer E q.analyzer.current query value = answer E p.analyzer.current query value)
    (fun q q' call hcall hq hs => ?_) ⟨⟨hp, hplaced⟩, rfl, fun _ _ => rfl, rfl⟩ h).2.2.2
  obtain ⟨⟨hok, hpl⟩, hcur, haff, hans⟩ := hq
  have heff := handleAnnotation_effect hok hs
  have hpl' := heff.effect.steps.placed hok.wf hpl
  obtain ⟨hsame, hwrite⟩ := handleAnnotation_writes hs
  refine ⟨⟨heff.ok, hpl'⟩, hsame.trans hcur, ?_⟩
  obtain hstay | ⟨id, g, hid, hg, hkind, htext, hann⟩ := hwrite
  · rw [hstay]
    exact ⟨haff, hans⟩
  · rw [hann]
    refine ⟨fun i anno => (affects_annotate hok.wf hg i anno).trans (haff i anno),
      (answer_annotate hok.wf hpl hg hkind htext ?_).trans hans⟩
    rw [haff]
    exact hno id (hcur ▸ hid) call hcall

/-- What annotates a definition that is new and not read by the request. -/
theorem affects_annotated_new {c : AnalyzerCtx} (hc : CtxWF E c) {f : Str} {node : SymNode}
    (hf : c.sources.find? f = some node.source)
    (h : affects E c query value (.listed f node.name node.range) = false)
    (anno : Option AnnoType) :
    affects E (linkDefinition c node) query value (.annotated c.syms.length anno) =
      false := by
  have hnew : (linkDefinition c node).syms[c.syms.length]? = some node :=
    (getElem?_alloc_iff _ _ _ _).mpr (Or.inr ⟨rfl, rfl⟩)
  cases query with
  | definition => rfl
  | references => rfl
  | hover =>
      have hrefs : ∀ g, referencesOf (linkDefinition c node) g = referencesOf c g :=
        linksOf_modify c node.source
          (fun src => { src with definitions := c.syms.length :: src.definitions }) (fun _ => rfl)
          (linkDefinition c node) rfl rfl
      have hfind : findDefinition E (linkDefinition c node) value = findDefinition E c value :=
        findDefinition_stays hc (linkDefinition_extends c node) hrefs fun _ _ => rfl
      have hne : findDefinition E c value ≠ some c.syms.length := by
        intro he
        exact absurd (findDefinition_lt hc he) (Nat.lt_irrefl _)
      simp [affects, hfind, hne]
  | documentSymbol =>
      have hne : (documentPath E value).bind c.sources.find? ≠ some node.source := by
        intro he
        obtain ⟨g, hpath, hg⟩ := Option.bind_eq_some_iff.mp he
        -- one source node has one file name
        obtain ⟨src, hs, hname⟩ := hc.sources f _ hf
        obtain ⟨src', hs', hname'⟩ := hc.sources g _ hg
        rw [hs] at hs'
        cases hs'
        rw [← hname', hname] at hpath
        simp [affects, hpath] at h
      simp only [affects, hnew, Option.any_some]
      have hno : decide ((documentPath E value).bind (linkDefinition c node).sources.find? =
          some node.source) = false := decide_eq_false hne
      rw [hno]
      simp
  | workspaceSymbol =>
      have hno : matchesQuery value node.name = false := h
      simp [affects, hnew, hno]

/-- A callback whose changes do not affect a request. -/
theorem answer_applyEvent {p p' : Pass} {ev : Event} (hp : PassOK E p)
    (hplaced : Placed p.analyzer.current) (h : applyEvent E p ev = some p')
    (hno : ∀ change ∈ eventChanges E p.analyzer p.ctx ev,
      affects E p.analyzer.current query value change = false) :
    answer E p'.analyzer.current query value = answer E p.analyzer.current query value := by
  have hreports := reports_current E
  cases ev with
  | fopen docs filename disk =>
      cases h
      rcases asmFopen_cases E p docs filename disk with
        he | ⟨content, c, node, hcontent, hc, hcur, -⟩
      · rw [he]
      · rw [hcur]
        obtain ⟨rfl, -⟩ | ⟨hnew, rfl, rfl⟩ := hc
        · exact answer_openSource hp.wf hplaced _ _
        · have hopened := hno (.opened filename.chars)
            (by simp [eventChanges, hcontent, hnew])
          have hstep : CtxStep E p.ctx.entryNode p.analyzer.current
              (addSource E p.analyzer.current filename.chars) := .addSource hnew
          exact (answer_openSource (hstep.wf hp.wf) (hstep.placed hp.wf hplaced) _ _).trans
            (answer_addSource hp.wf hplaced hnew hopened)
  | report type r =>
      cases h
      rw [hreports.asmReport p.analyzer type r]
  | putRom addr value =>
      cases h
      rfl
  | chessReport traceId type r =>
      cases h
      rw [hreports.chessReport p.analyzer traceId type r]
  | chessDeo traceId s value port =>
      cases h
      rw [hreports.chessDeo p.analyzer traceId s value port]
  | putSymbol addr sym annos =>
      obtain ⟨-, rfl⟩ | ⟨hrepeat, q, hq, h⟩ := asmPutSymbol_cases h
      · rfl
      · have heff := putSymNode_effect hp hq
        have hqok : PassOK E { q with ctx := { q.ctx with previousSym := some sym } } :=
          ⟨heff.ok.wf, heff.ok.listed, heff.ok.recent⟩
        have hqplaced : Placed q.analyzer.current := heff.effect.steps.placed hp.wf hplaced
        obtain ⟨hdef, file, a, node, hput, hcur⟩ | ⟨hdef, hcur, hctx⟩ := putSymNode_cases hq
        · have hchanges : eventChanges E p.analyzer p.ctx (.putSymbol addr sym annos) =
              [.listed sym.region.filename.chars node.name node.range] := by
            simp [eventChanges, hrepeat, hdef.1, hdef.2, hput.name, hput.range]
          have hlisted := hno _ (hchanges ▸ List.mem_singleton_self _)
          have hsource := hput.source
          have hlink := hput.current
          rw [hcur] at hsource hlink
          obtain ⟨enumScope, hqctx⟩ := hput.ctx
          refine (answer_annotations hqok hqplaced h fun id hid call _ => ?_).trans ?_
          · -- the annotated symbol is the new one
            have hid' : id = p.analyzer.current.syms.length := by
              rw [← hcur]
              simpa [hqctx, eq_comm] using hid
            dsimp only
            rw [hid', hlink]
            exact affects_annotated_new hp.wf hsource hlisted call.annotation
          · dsimp only
            rw [hlink]
            exact answer_linkDefinition hp.wf hplaced hsource hlisted
        · refine (answer_annotations hqok hqplaced h fun id hid call hcall => ?_).trans
            (by dsimp only; rw [hcur])
          dsimp only at hid ⊢
          rw [hcur]
          refine hno _ ?_
          have hcond : ¬ (isDefinition sym = true ∧ ¬ sym.nameIsGenerated = true) := by
            rintro ⟨ht, hg⟩
            exact hdef ⟨ht, by simpa using hg⟩
          rw [hctx] at hid
          simp only [eventChanges, if_neg hrepeat, if_neg hcond, hid, Option.toList_some,
            List.flatMap_singleton]
          exact List.mem_map_of_mem hcall

end Callbacks

/-! ## Pass ends -/

/-- No reference that the loop at a pass end connects affects the request. -/
def SparedByReference (E : Env) (query : Query) (value : Option Json) (a : Analyzer)
    (sym : AsmSym) : Prop :=
  ∀ d ∈ resolveReference a sym, affects E a.current query value
    (.connected sym.region.filename.chars
      (convertRange E a sym.region.filename.chars sym.region.range).2 d) = false

instance (E : Env) (query : Query) (value : Option Json) (a : Analyzer) (sym : AsmSym) :
    Decidable (SparedByReference E query value a sym) :=
  inferInstanceAs (Decidable (∀ d ∈ resolveReference a sym, _ = false))

/-- What a context being built keeps while nothing affects a request. -/
structure Kept (E : Env) (query : Query) (value : Option Json) (reply : Reply)
    (c : AnalyzerCtx) : Prop where
  wf : CtxWF E c
  placed : Placed c
  answer : answer E c query value = reply

section PassEnd

variable {E : Env} {query : Query} {value : Option Json} {reply : Reply}

theorem carrySymbols_kept {source : SrcId} (last : Nat) {f : Str} (ids : List SymId)
    {a : Analyzer} (h : Kept E query value reply a.current)
    (hs : a.current.sources.find? f = some source)
    (hno : ∀ n ∈ carriedNodes a.previous source last ids,
      affects E a.current query value (.listed f n.name n.range) = false) :
    Kept E query value reply (ids.foldl (carrySymbol source last) a).current := by
  induction ids generalizing a with
  | nil => exact h
  | cons id ids ih =>
      rw [List.foldl_cons]
      have hcarry := carrySymbol_carries source last a id
      have hrest : ∀ n ∈ carriedNodes a.previous source last ids,
          affects E a.current query value (.listed f n.name n.range) = false := by
        intro n hn
        obtain ⟨i, hi, hold⟩ := mem_carriedNodes_iff.mp hn
        exact hno n (mem_carriedNodes_iff.mpr ⟨i, List.mem_cons_of_mem _ hi, hold⟩)
      refine ih ?_ (hcarry.sources ▸ hs) (fun n hn => hrest n (hcarry.previous ▸ hn))
      unfold carrySymbol
      cases hold : a.previous.syms[id]? with
      | none => exact h
      | some old =>
          dsimp only
          split
          · exact h
          · rename_i hle
            have hone := hno { old with source := source, origin := .carried id }
              (mem_carriedNodes_iff.mpr ⟨id, List.mem_cons_self, old, hold, by omega, rfl⟩)
            have hstep : CtxStep E 0 a.current
                (linkDefinition a.current { old with source := source, origin := .carried id }) :=
              .definition hs
            exact ⟨hstep.wf h.wf, hstep.placed h.wf h.placed,
              (answer_linkDefinition h.wf h.placed hs hone).trans h.answer⟩

theorem carryFiles_kept (es : List (Str × File)) {a : Analyzer}
    (h : Kept E query value reply a.current)
    (hno : ∀ e ∈ es, ∀ n ∈ carriedOf a e.1 e.2,
      affects E a.current query value (.listed e.1 n.name n.range) = false) :
    Kept E query value reply (es.foldl (fun a e => carryFile a e.1 e.2) a).current := by
  induction es generalizing a with
  | nil => exact h
  | cons e es ih =>
      rw [List.foldl_cons]
      have hcarry := carryFile_carries a e.1 e.2
      have hsame : ∀ x : Str × File, carriedOf (carryFile a e.1 e.2) x.1 x.2 =
          carriedOf a x.1 x.2 := by
        intro x
        unfold carriedOf
        rw [hcarry.previous, hcarry.sources]
      refine ih ?_ fun x hx n hn => hno x (List.mem_cons_of_mem _ hx) n (hsame x ▸ hn)
      have hfile := hno e List.mem_cons_self
      unfold carryFile
      unfold carriedOf at hfile
      split
      · rename_i herr
        rw [if_pos herr] at hfile
        split
        · rename_i src source hsrc hcur
          rw [hsrc, hcur] at hfile
          exact carrySymbols_kept _ _ h hcur hfile
        · exact h
      · exact h

/-- A pass end that lists and connects nothing the request reads. -/
theorem leavePass_kept {a a' : Analyzer} (h : Kept E query value reply a.current)
    (hd : DefsListed a) (hleave : leavePass E a = some a')
    (hcarry : ∀ f, ∀ n ∈ carriedInto a f,
      affects E a.current query value (.listed f n.name n.range) = false)
    (hrefs : Meets (connectReference E) (SparedByReference E query value) (carryForward a)
      a.references) :
    Kept E query value reply a'.current := by
  have hcarried : Kept E query value reply (carryForward a).current := by
    refine carryFiles_kept a.files.entries h fun e he n hn => hcarry e.1 n ?_
    have hfind := (a.files.mem_entries_iff e.1 e.2).mp he
    unfold carriedInto
    rw [hfind]
    exact hn
  have hrun : run (connectReference E) (carryForward a) a.references = some a' := by
    rw [← (carryForward_carries a).references]
    exact hleave
  refine (run_inv_of_meets (P := fun b => Kept E query value reply b.current ∧ DefsListed b)
    (fun b sym b' hb hno hs => ?_)
    ⟨hcarried, (carryForward_effect E 0 a).listed h.wf hd⟩ hrefs hrun).1
  have heff := connectReference_effect (E := E) 0 hb.2 hs
  refine ⟨⟨heff.steps.wf hb.1.wf, heff.steps.placed hb.1.wf hb.1.placed, ?_⟩,
    heff.listed hb.1.wf hb.2⟩
  obtain ⟨-, rfl⟩ | ⟨d, b₁, node, hr, hm, rfl⟩ := connectReference_cases hs
  · exact hb.1.answer
  · obtain ⟨hlines, hsource, -, -, -, -, hrange⟩ := makeSymNode_spec hm
    have hconnected := hno d hr
    rw [← hrange] at hconnected
    dsimp only
    rw [hlines.current]
    exact (answer_linkReference hb.1.wf hb.1.placed hsource (resolveReference_defined hb.2 hr).lt
      hconnected).trans hb.1.answer

end PassEnd

/-! ## Steps -/

/-- No change that the step makes affects the request. -/
def SparedBy (E : Env) (query : Query) (value : Option Json) (m : Machine) : Label → Prop
  | .event ev => ∀ ctx ∈ m.phase.passCtx, ∀ change ∈ eventChanges E m.analyzer ctx ev,
      affects E m.analyzer.current query value change = false
  | .leave => (∀ x ∈ carriedAt m .leave,
      affects E m.analyzer.current query value (.listed x.1 x.2.name x.2.range) = false) ∧
      Meets (connectReference E) (SparedByReference E query value) (carryForward m.analyzer)
        m.analyzer.references
  | _ => True

instance (E : Env) (query : Query) (value : Option Json) (m : Machine) (l : Label) :
    Decidable (SparedBy E query value m l) :=
  match l with
  | .event ev => inferInstanceAs (Decidable (∀ ctx ∈ m.phase.passCtx,
      ∀ change ∈ eventChanges E m.analyzer ctx ev, _ = false))
  | .leave => inferInstanceAs (Decidable (_ ∧ _))
  | .start _ | .skip | .enter | .asmDone _ | .chessDone | .finish => isTrue trivial

/-- The invariant of requests around an analysis. -/
structure ServingOK (E : Env) (m : Machine) : Prop where
  ok : MachineOK E m
  placed : Placed m.analyzer.current

theorem step_kept {E : Env} {query : Query} {value : Option Json} {m m' : Machine} {l : Label}
    (hm : ServingOK E m) (h : step E m l = some m') (hl : ∀ docs, l ≠ .start docs)
    (hno : SparedBy E query value m l) :
    answer E m'.analyzer.current query value = answer E m.analyzer.current query value := by
  cases step_cases h with
  | start _ _ => exact absurd rfl (hl _)
  | skip _ _ _ => rfl
  | enter _ _ _ => rfl
  | event hctx hev =>
      exact answer_applyEvent (hm.ok.pass hctx) hm.placed hev (hno _ hctx)
  | asmDone _ _ _ => rfl
  | asmEnded _ _ => rfl
  | chessDone _ => rfl
  | leave hp ha =>
      exact (leavePass_kept ⟨hm.ok.current, hm.placed, rfl⟩ (hm.ok.listed (hp ▸ trivial)) ha
        (fun f n hn => hno.1 (f, n) (mem_carriedAt_iff.mpr hn)) hno.2).answer
  | finish _ _ => rfl

theorem step_servingOK {E : Env} {m m' : Machine} {l : Label} (hm : ServingOK E m)
    (h : step E m l = some m') : ServingOK E m' := by
  refine ⟨step_ok hm.ok h, ?_⟩
  cases step_cases h with
  | start _ ha =>
      obtain ⟨hb, -⟩ := analyzeBegin_begun ha
      intro id n hn
      rw [hb.syms] at hn
      exact absurd hn (by simp)
  | event hctx hev =>
      exact (applyEvent_effect (hm.ok.pass hctx) hev).effect.steps.placed hm.ok.current hm.placed
  | leave hp ha =>
      exact (leavePass_effect 0 hm.ok.current (hm.ok.listed (hp ▸ trivial)) ha).steps.placed
        hm.ok.current hm.placed
  | _ => exact hm.placed

/-! ## Requests that find nothing -/

/-- The request finds something to answer with. -/
def finds (E : Env) (c : AnalyzerCtx) (query : Query) (value : Option Json) : Bool :=
  match query with
  | .definition | .hover => (findDefinition E c value).isSome
  | .references => (foundDefinition E c value).isSome
  | .documentSymbol => (requestSource E c value).isSome
  | .workspaceSymbol => c.sourceNodes.any fun src =>
      (c.nodes src.definitions).any fun n => matchesQuery value n.name

/-- What a request is answered that finds nothing. -/
def answerOfNothing (query : Query) (value : Option Json) : Reply :=
  match query with
  | .definition => .location none
  | .references => .locations none
  | .hover => .hover none
  | .documentSymbol => .docSymbols none
  | .workspaceSymbol => .workspaceSymbols
      ((Json.getStr (Json.get value (ascii "query"))).map fun _ => [])

theorem answer_of_finds_nothing {E : Env} {c : AnalyzerCtx} {query : Query}
    {value : Option Json} (h : finds E c query value = false) :
    answer E c query value = answerOfNothing query value := by
  cases query with
  | definition =>
      have hnone : findDefinition E c value = none := by simpa [finds] using h
      refine congrArg Reply.location ?_
      rw [handleFindDefinition_eq, hnone, Option.bind_none]
  | references =>
      have hnone : foundDefinition E c value = none := by simpa [finds] using h
      refine congrArg Reply.locations ?_
      rw [handleFindReferences_eq, hnone, Option.map_none]
  | hover =>
      have hnone : findDefinition E c value = none := by simpa [finds] using h
      refine congrArg Reply.hover ?_
      rw [handleHover_eq, hnone, Option.bind_none]
  | documentSymbol =>
      have hnone : requestSource E c value = none := by simpa [finds] using h
      refine congrArg Reply.docSymbols ?_
      unfold handleListDocSymbols
      rw [hnone, Option.map_none]
  | workspaceSymbol =>
      refine congrArg Reply.workspaceSymbols ?_
      unfold handleListWorkspaceSymbols
      cases hquery : Json.getStr (Json.get value (ascii "query")) with
      | none => rfl
      | some query =>
          rw [Option.map_some, Option.map_some]
          refine congrArg some (List.flatMap_eq_nil_iff.mpr fun src hsrc => ?_)
          rw [List.map_eq_nil_iff, List.filter_eq_nil_iff]
          intro n hn hmatch
          have hany : finds E c .workspaceSymbol value = true := by
            refine List.any_eq_true.mpr ⟨src, hsrc, List.any_eq_true.mpr ⟨n, hn, ?_⟩⟩
            unfold matchesQuery
            rw [hquery, Option.any_some]
            exact hmatch
          rw [hany] at h
          cases h

/-! ## Runs -/

/-- The step of the analysis in a move. -/
def analysisStep (s : Serving) : ServingLabel → Option Label
  | .advance l => some l
  | .fileRead disk => s.reading.map fun x => .event (.fopen x.1 x.2 disk)
  | _ => none

/-- The move affects no request of the analysis, apart from those that found nothing when they
    were handled and would have found nothing before the analysis. -/
def Undisturbed (E : Env) (s : Serving) (move : ServingLabel) : Prop :=
  ∀ l ∈ analysisStep s move, ∀ r ∈ s.served,
    finds E s.before r.query r.value = true ∨ finds E r.context r.query r.value = true →
      SparedBy E r.query r.value s.machine l

instance (E : Env) (s : Serving) (move : ServingLabel) : Decidable (Undisturbed E s move) :=
  inferInstanceAs (Decidable (∀ l ∈ analysisStep s move, ∀ r ∈ s.served, _ → _))

/-- With the analysis finished, every request since its start has been answered as before the
    analysis or as after it. -/
def SeesWhole (E : Env) (s : Serving) : Prop :=
  s.machine.phase = .idle → ∀ r ∈ s.served,
    r.reply E = answer E s.before r.query r.value ∨
      r.reply E = answer E s.machine.analyzer.current r.query r.value

/-- A request of the analysis found nothing and would have found nothing, or is still answered
    the same. -/
structure AnsweredOK (E : Env) (s : Serving) : Prop where
  serving : ServingOK E s.machine
  answered : ∀ r ∈ s.served,
    (finds E s.before r.query r.value = false ∧ finds E r.context r.query r.value = false) ∨
      r.reply E = answer E s.machine.analyzer.current r.query r.value

theorem AnsweredOK.seesWhole {E : Env} {s : Serving} (h : AnsweredOK E s) : SeesWhole E s := by
  intro _ r hr
  rcases h.answered r hr with ⟨hbefore, hcontext⟩ | hsame
  · left
    unfold Served.reply
    rw [answer_of_finds_nothing hcontext, answer_of_finds_nothing hbefore]
  · exact Or.inr hsame

/-- A step of the analysis that spares the requests answered so far. -/
theorem AnsweredOK.advance {E : Env} {s : Serving} {m : Machine} {l : Label}
    (h : AnsweredOK E s) (hs : step E s.machine l = some m) (hl : ∀ docs, l ≠ .start docs)
    (hno : ∀ r ∈ s.served,
      finds E s.before r.query r.value = true ∨ finds E r.context r.query r.value = true →
        SparedBy E r.query r.value s.machine l) (reading : Option (Docs × CStr)) :
    AnsweredOK E { s with machine := m, reading := reading } := by
  refine ⟨step_servingOK h.serving hs, fun r hr => ?_⟩
  by_cases hfinds : finds E s.before r.query r.value = true ∨
      finds E r.context r.query r.value = true
  · rcases h.answered r hr with ⟨hbefore, hcontext⟩ | hsame
    · rw [hbefore, hcontext] at hfinds
      simp at hfinds
    · have hkept := step_kept h.serving hs hl (hno r hr hfinds)
      exact Or.inr (hsame.trans hkept.symm)
  · rw [not_or, Bool.not_eq_true, Bool.not_eq_true] at hfinds
    exact Or.inl hfinds

theorem servingStep_answeredOK {E : Env} {s t : Serving} {move : ServingLabel}
    (h : AnsweredOK E s) (hno : Undisturbed E s move) (hs : servingStep E s move = some t) :
    AnsweredOK E t := by
  cases move with
  | advance l =>
      simp only [servingStep] at hs
      split at hs
      · rename_i hreading
        obtain ⟨m, hm, rfl⟩ := Option.map_eq_some_iff.mp hs
        by_cases hl : ∃ docs, l = .start docs
        · obtain ⟨docs, rfl⟩ := hl
          exact ⟨step_servingOK h.serving hm, fun r hr => absurd hr List.not_mem_nil⟩
        · have hl : ∀ docs, l ≠ .start docs := fun docs he => hl ⟨docs, he⟩
          have hnext := h.advance hm hl (hno l rfl) s.reading
          cases l with
          | start docs => exact absurd rfl (hl docs)
          | skip => exact hnext
          | enter => exact hnext
          | event ev => exact hnext
          | asmDone success => exact hnext
          | chessDone => exact hnext
          | leave => exact hnext
          | finish => exact hnext
      · cases hs
  | readFile docs filename =>
      simp only [servingStep] at hs
      split at hs
      · split at hs
        · cases hs
          exact ⟨h.serving, h.answered⟩
        · cases hs
      · cases hs
  | request query value =>
      simp only [servingStep] at hs
      split at hs
      · cases hs
        refine ⟨h.serving, fun r hr => ?_⟩
        rcases List.mem_append.mp hr with hr | hr
        · exact h.answered r hr
        · rw [List.mem_singleton.mp hr]
          exact Or.inr rfl
      · cases hs
  | fileRead disk =>
      simp only [servingStep] at hs
      split at hs
      · cases hs
      · rename_i docs filename hreading
        obtain ⟨m, hm, rfl⟩ := Option.map_eq_some_iff.mp hs
        have hstep : analysisStep s (.fileRead disk) =
            some (.event (.fopen docs filename disk)) := by
          simp [analysisStep, hreading]
        exact h.advance hm (fun docs he => by cases he) (hno _ hstep) none

theorem answeredOK_init (E : Env) : AnsweredOK E Serving.init where
  serving := ⟨machineOK_init E, fun id n hn => by
    simp [Serving.init, Machine.init, Analyzer.init, AnalyzerCtx.empty] at hn⟩
  answered := fun r hr => absurd hr List.not_mem_nil

/-- In a run whose moves disturb no request, every request is answered as before the analysis
    around it or as after that analysis. -/
theorem queries_see_whole {E : Env} {ls : List ServingLabel}
    (h : Meets (servingStep E) (Undisturbed E) Serving.init ls) :
    Always (servingStep E) (SeesWhole E) Serving.init ls := by
  have hall := always_of_meets (P := AnsweredOK E)
    (fun _ _ _ hs hno hst => servingStep_answeredOK hs hno hst) (answeredOK_init E) h
  exact fun pre hpre s hs => (hall pre hpre s hs).seesWhole

/-! ## A request while an included file is read -/

def includingDocs : Docs := Table.empty.put (ascii "a") (ascii "@foo ~c @bar")

def labelOfA (name : String) (id : UInt16) (byte : Nat)
    (h : cStr (ascii name) = ascii name := by decide) : AsmSym where
  type := .label
  name := ascii name
  name_cStr := h
  nameIsGenerated := false
  id := id
  region := ⟨⟨1, ascii "a"⟩, ⟨⟨1, byte + 1, byte⟩, ⟨1, byte + 5, byte + 4⟩⟩⟩

def symbolsOfA : Option Json :=
  some (.obj [(ascii "textDocument", .obj [(ascii "uri", .str (ascii "file:///w/a"))])])

/-- The document symbols of `a` are requested while its include is read; `later` is what the
    assembler delivers behind the include. -/
def includingRun (later : List Event) : List ServingLabel :=
  [.advance (.start includingDocs), .advance .enter,
    .advance (.event (.fopen includingDocs ⟨1, ascii "a"⟩ none)),
    .advance (.event (.putSymbol 256 (labelOfA "foo" 1 0 cStr_foo) [])),
    .readFile includingDocs ⟨3, ascii "c"⟩, .request .documentSymbol symbolsOfA,
    .fileRead (some (ascii "#00"))] ++ later.map (fun ev => .advance (.event ev)) ++
  [.advance (.asmDone true), .advance .chessDone, .advance .leave, .advance .finish]

/-- The answer of the first request, and the same request before and after the analysis. -/
def firstAnswer (s : Serving) : Option (Reply × Reply × Reply) :=
  s.served.head?.map fun r => (r.reply asciiEnv, answer asciiEnv s.before r.query r.value,
    answer asciiEnv s.machine.analyzer.current r.query r.value)

def symbolOf (name : String) (start : Int) : DocSymbolReply :=
  ⟨ascii name, 8, ⟨⟨0, start⟩, ⟨0, start + 4⟩⟩, ⟨⟨0, start⟩, ⟨0, start + 4⟩⟩⟩

/-- Nothing comes behind the include. -/
theorem queries_see_whole_last_include :
    ∃ s, run (servingStep asciiEnv) Serving.init (includingRun []) = some s ∧
      firstAnswer s = some (.docSymbols (some [symbolOf "foo" 0]), .docSymbols none,
        .docSymbols (some [symbolOf "foo" 0])) ∧ SeesWhole asciiEnv s := by
  have hout : (run (servingStep asciiEnv) Serving.init (includingRun [])).map firstAnswer =
      some (some (.docSymbols (some [symbolOf "foo" 0]), .docSymbols none,
        .docSymbols (some [symbolOf "foo" 0]))) := by decide
  obtain ⟨s, hs, hanswer⟩ := Option.map_eq_some_iff.mp hout
  exact ⟨s, hs, hanswer, queries_see_whole (by decide) (includingRun []) List.prefix_rfl s hs⟩

/-- A label of `a` comes behind the include: the request sees half of them. -/
theorem queries_see_whole_fails :
    ∃ s, run (servingStep asciiEnv) Serving.init
        (includingRun [.putSymbol 256 (labelOfA "bar" 2 8) []]) = some s ∧
      s.machine.phase = .idle ∧
      firstAnswer s = some (.docSymbols (some [symbolOf "foo" 0]), .docSymbols none,
        .docSymbols (some [symbolOf "bar" 8, symbolOf "foo" 0])) ∧
      ¬ SeesWhole asciiEnv s := by
  have hout : (run (servingStep asciiEnv) Serving.init
      (includingRun [.putSymbol 256 (labelOfA "bar" 2 8) []])).map (fun s =>
        (decide (s.machine.phase = .idle), firstAnswer s)) =
      some (true, some (.docSymbols (some [symbolOf "foo" 0]), .docSymbols none,
        .docSymbols (some [symbolOf "bar" 8, symbolOf "foo" 0]))) := by decide
  obtain ⟨s, hs, he⟩ := Option.map_eq_some_iff.mp hout
  obtain ⟨hidle, hanswer⟩ := Prod.mk.injEq _ _ _ _ |>.mp he
  have hidle := of_decide_eq_true hidle
  refine ⟨s, hs, hidle, hanswer, fun hwhole => ?_⟩
  obtain ⟨r, hr, hreplies⟩ := Option.map_eq_some_iff.mp hanswer
  simp only [Prod.mk.injEq] at hreplies
  obtain ⟨hreply, hbefore, hafter⟩ := hreplies
  have hsee := hwhole hidle r (List.mem_of_head? hr)
  rw [hreply, hbefore, hafter] at hsee
  exact absurd hsee (by decide)

end BuxnLs.Analysis
