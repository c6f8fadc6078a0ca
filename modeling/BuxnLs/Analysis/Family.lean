/-
  Which definitions completion looks at, and what it counts. The visit is a fold over `offered`,
  the definitions of the include family of a file, once for every route to their file. The fold
  files each match under its key, so the item of a key is what the matches of that key make
  (`mergeItems_spec`). No match is lost (`completion_covers_family`). The sizes count a match once
  for each route, so they are the numbers of distinct matches exactly when every file with a match
  is reached on one route (`group_sizes_iff`).
-/
import BuxnLs.Analysis.Completion
import BuxnLs.Lib.Decimal
import BuxnLs.Lib.Family
import BuxnLs.Lib.Grouping
import Mathlib.Data.List.Dedup

namespace BuxnLs.Analysis

open BuxnLs.Lib BuxnLs.Model Relation

/-! ## The definitions of the family -/

def definitionsAt (c : AnalyzerCtx) (id : SrcId) : List SymId :=
  (c.srcs[id]?).elim [] SrcNode.definitions

/-- The files that the visit from `id` comes to, once for each route. -/
def visited (c : AnalyzerCtx) (id : SrcId) : List SrcId :=
  family c.srcGraph (c.srcGraph.edges.length + 1) id

/-- The definitions that the visit from `id` looks at, in order. -/
def offered (c : AnalyzerCtx) (id : SrcId) : List SymId :=
  (visited c id).flatMap (definitionsAt c)

theorem mem_definitionsAt_iff {c : AnalyzerCtx} {id : SrcId} {d : SymId} :
    d ∈ definitionsAt c id ↔ ∃ src : SrcNode, c.srcs[id]? = some src ∧ d ∈ src.definitions := by
  unfold definitionsAt
  cases hs : c.srcs[id]? with
  | none => simp
  | some src => simp

theorem mem_offered_iff {c : AnalyzerCtx} {id : SrcId} {d : SymId} :
    d ∈ offered c id ↔ ∃ file ∈ visited c id, d ∈ definitionsAt c file := List.mem_flatMap

theorem mem_visited_iff {c : AnalyzerCtx} (hg : c.srcGraph.Acyclic) {id file : SrcId} :
    file ∈ visited c id ↔
      ∃ root, c.srcGraph.RootOf root id ∧ ReflTransGen c.srcGraph.Adj root file :=
  mem_family_iff hg (Nat.lt_succ_self _)

/-- A definition is a node of the file that lists it. -/
theorem CtxWF.exists_definition {E : Env} {c : AnalyzerCtx} (hc : CtxWF E c) {file : SrcId}
    {d : SymId} (hd : d ∈ definitionsAt c file) :
    ∃ node : SymNode, c.syms[d]? = some node ∧ node.source = file := by
  obtain ⟨src, hs, hd⟩ := mem_definitionsAt_iff.mp hd
  exact (hc.definitions file src hs).2 d hd

theorem CtxWF.exists_offered {E : Env} {c : AnalyzerCtx} (hc : CtxWF E c) {id : SrcId}
    {d : SymId} (hd : d ∈ offered c id) : ∃ node : SymNode, c.syms[d]? = some node := by
  obtain ⟨file, -, hd⟩ := mem_offered_iff.mp hd
  obtain ⟨node, hn, -⟩ := hc.exists_definition hd
  exact ⟨node, hn⟩

/-- A definition is looked at once for each route to its file. -/
theorem CtxWF.count_offered {E : Env} {c : AnalyzerCtx} (hc : CtxWF E c) {id file : SrcId}
    {d : SymId} (hd : d ∈ definitionsAt c file) :
    (offered c id).count d = (visited c id).count file := by
  obtain ⟨node, hn, hsource⟩ := hc.exists_definition hd
  have hnodup : (definitionsAt c file).Nodup := by
    obtain ⟨src, hs, -⟩ := mem_definitionsAt_iff.mp hd
    unfold definitionsAt
    rw [hs]
    exact (hc.definitions file src hs).1
  refine count_flatMap_of_owner hd hnodup (fun file' hd' => ?_) _
  obtain ⟨node', hn', hsource'⟩ := hc.exists_definition hd'
  obtain rfl := Option.some.inj (hn.symm.trans hn')
  exact hsource'.symm.trans hsource

/-! ## The visit is a fold -/

theorem visitFile_eq (c : AnalyzerCtx) (visit : SymVisit) (map : CompletionMap) (id : SrcId) :
    visitFile c visit map id =
      (c.nodes (definitionsAt c id)).foldl (visitDefinition visit) map := by
  unfold visitFile definitionsAt
  split
  · rename_i hs
    rw [hs]
    rfl
  · rename_i src hs
    rw [hs]
    rfl

/-- `buxn_ls_visit_symbols_from_root` runs the body of its loop on the definitions offered. -/
theorem visitSymbolsFromRoot_eq {c : AnalyzerCtx} (hg : c.srcGraph.Acyclic) (visit : SymVisit)
    (map : CompletionMap) (id : SrcId) :
    visitSymbolsFromRoot c visit (c.srcGraph.edges.length + 1) map id =
      some ((c.nodes (offered c id)).foldl (visitDefinition visit) map) := by
  have hfold : ∀ (files : List SrcId) (map : CompletionMap),
      files.foldl (visitFile c visit) map =
        (c.nodes (files.flatMap (definitionsAt c))).foldl (visitDefinition visit) map := by
    intro files
    induction files with
    | nil => exact fun _ => rfl
    | cons file files ih =>
        intro map
        rw [List.foldl_cons, ih, visitFile_eq, List.flatMap_cons, AnalyzerCtx.nodes,
          AnalyzerCtx.nodes, AnalyzerCtx.nodes, List.filterMap_append, List.foldl_append]
  exact (climb_eq_foldl hg (Nat.lt_succ_self _) map id).trans
    (congrArg some (hfold (visited c id) map))

/-! ## Keys and items -/

/-- The key of a symbol in the completion map. -/
def symbolKey (visit : SymVisit) (node : SymNode) : Str :=
  if visit.groupSymbols = true then
    if labelScope node.name = visit.currentScope then node.name else labelScope node.name
  else node.name

def IsRoot (node : SymNode) : Prop := node.name = labelScope node.name

instance : DecidablePred IsRoot := fun _ => inferInstanceAs (Decidable (_ = _))

/-- The item that takes the place of `old` when `node` is filed. -/
def mergeItem (visit : SymVisit) (old : Option CompletionItem) (node : SymNode) :
    CompletionItem :=
  let fresh : CompletionItem := ⟨node, 1, decide (labelScope node.name = visit.currentScope)⟩
  if visit.groupSymbols = true then
    old.elim fresh fun item =>
      { item with
          size := wrapInt (item.size + 1)
          sym := if node.name = labelScope node.name then node else item.sym }
  else fresh

theorem mergeItem_none (visit : SymVisit) (node : SymNode) :
    mergeItem visit none node =
      ⟨node, 1, decide (labelScope node.name = visit.currentScope)⟩ := by
  unfold mergeItem
  split <;> rfl

theorem mergeItem_some {visit : SymVisit} (hgroup : visit.groupSymbols = true)
    (item : CompletionItem) (node : SymNode) :
    mergeItem visit (some item) node =
      { item with
          size := wrapInt (item.size + 1)
          sym := if IsRoot node then node else item.sym } :=
  if_pos hgroup

theorem mergeItem_ungrouped {visit : SymVisit} (hgroup : visit.groupSymbols = false)
    (old : Option CompletionItem) (node : SymNode) :
    mergeItem visit old node =
      ⟨node, 1, decide (labelScope node.name = visit.currentScope)⟩ :=
  if_neg (by rw [hgroup]; decide)

theorem visitDefinition_of_match {visit : SymVisit} {node : SymNode}
    (h : matchSymbol node visit.filter = true) (map : CompletionMap) :
    visitDefinition visit map node =
      Table.fileUnder (symbolKey visit) (mergeItem visit) map node := by
  unfold visitDefinition Table.fileUnder symbolKey mergeItem
  rw [if_pos h]
  by_cases hgroup : visit.groupSymbols = true
  · simp only [hgroup, if_true, decide_eq_true_eq]
    split
    · rename_i hnone
      rw [hnone]
      rfl
    · rename_i item hitem
      rw [hitem]
      rfl
  · simp only [hgroup, Bool.false_eq_true, if_false]

/-- The matches of a key, once for each time they are looked at. -/
def group (c : AnalyzerCtx) (visit : SymVisit) (id : SrcId) (key : Str) : List SymNode :=
  (c.nodes (offered c id)).filter fun node =>
    matchSymbol node visit.filter = true ∧ symbolKey visit node = key

theorem mem_group_iff {c : AnalyzerCtx} {visit : SymVisit} {id : SrcId} {key : Str}
    {node : SymNode} :
    node ∈ group c visit id key ↔ (∃ d ∈ offered c id, c.syms[d]? = some node) ∧
      matchSymbol node visit.filter = true ∧ symbolKey visit node = key := by
  unfold group
  rw [List.mem_filter, AnalyzerCtx.nodes, List.mem_filterMap, decide_eq_true_eq]

/-- Whether a definition is a match of a key. -/
def hits (c : AnalyzerCtx) (visit : SymVisit) (key : Str) (d : SymId) : Bool :=
  (c.syms[d]?).any fun node =>
    matchSymbol node visit.filter = true ∧ symbolKey visit node = key

theorem hits_iff {c : AnalyzerCtx} {visit : SymVisit} {key : Str} {d : SymId} {node : SymNode}
    (hn : c.syms[d]? = some node) :
    hits c visit key d = true ↔
      matchSymbol node visit.filter = true ∧ symbolKey visit node = key := by
  unfold hits
  rw [hn, Option.any_some, decide_eq_true_eq]

theorem length_group (c : AnalyzerCtx) (visit : SymVisit) (id : SrcId) (key : Str) :
    (group c visit id key).length = ((offered c id).filter (hits c visit key)).length := by
  unfold group
  induction offered c id with
  | nil => rfl
  | cons d ds ih =>
      unfold AnalyzerCtx.nodes at ih ⊢
      cases hn : c.syms[d]? with
      | none =>
          have hno : ¬ hits c visit key d = true := by simp [hits, hn]
          rw [List.filterMap_cons_none hn, List.filter_cons_of_neg hno, ih]
      | some node =>
          rw [List.filterMap_cons_some hn]
          by_cases hhit : hits c visit key d = true
          · rw [List.filter_cons_of_pos hhit, List.filter_cons,
              if_pos (decide_eq_true ((hits_iff hn).mp hhit)), List.length_cons,
              List.length_cons, ih]
          · rw [List.filter_cons_of_neg hhit, List.filter_cons,
              if_neg (by simpa using fun h hk => hhit ((hits_iff hn).mpr ⟨h, hk⟩)), ih]

theorem length_group_le (c : AnalyzerCtx) (visit : SymVisit) (id : SrcId) (key : Str) :
    (group c visit id key).length ≤ (offered c id).length := by
  rw [length_group]
  exact List.length_filter_le _ _

/-- Each file weighs its matches as often as it is come to. -/
theorem length_group_eq_total (c : AnalyzerCtx) (visit : SymVisit) (id : SrcId) (key : Str) :
    (group c visit id key).length =
      totalOf (fun file => ((definitionsAt c file).filter (hits c visit key)).length)
        (visited c id) := by
  rw [length_group]
  exact length_filter_flatMap _ _ _

/-- Only the matches of a key make its item. -/
theorem find?_visited (c : AnalyzerCtx) (visit : SymVisit) (id : SrcId) (key : Str) :
    ((c.nodes (offered c id)).foldl (visitDefinition visit) .empty).find? key =
      Table.mergeAll (mergeItem visit) none (group c visit id key) := by
  have hfilter : ∀ (nodes : List SymNode) (map : CompletionMap),
      nodes.foldl (visitDefinition visit) map =
        (nodes.filter fun node => matchSymbol node visit.filter).foldl
          (Table.fileUnder (symbolKey visit) (mergeItem visit)) map := by
    intro nodes
    induction nodes with
    | nil => exact fun _ => rfl
    | cons node nodes ih =>
        intro map
        rw [List.foldl_cons, ih]
        by_cases h : matchSymbol node visit.filter = true
        · rw [List.filter_cons, if_pos h, List.foldl_cons, visitDefinition_of_match h]
        · rw [List.filter_cons, if_neg h, visitDefinition, if_neg h]
  rw [hfilter, Table.find?_foldl_file, List.filter_filter]
  unfold group
  congr 1
  refine List.filter_congr fun node _ => ?_
  rw [Bool.decide_and, Bool.decide_eq_true, Bool.and_comm]

/-- The last root among some matches, which represents them. -/
def lastRoot (nodes : List SymNode) : Option SymNode := (nodes.filter fun x => IsRoot x).getLast?

theorem lastRoot_concat (nodes : List SymNode) (node : SymNode) :
    lastRoot (nodes ++ [node]) = if IsRoot node then some node else lastRoot nodes := by
  unfold lastRoot
  rw [List.filter_append]
  by_cases h : IsRoot node
  · have hone : [node].filter (fun x => IsRoot x) = [node] :=
      List.filter_cons_of_pos (by simpa using h)
    rw [if_pos h, hone, List.getLast?_concat]
  · have hnone : [node].filter (fun x => IsRoot x) = [] :=
      List.filter_cons_of_neg (by simpa using h)
    rw [if_neg h, hnone, List.append_nil]

theorem lastRoot_eq_none_iff {nodes : List SymNode} :
    lastRoot nodes = none ↔ ∀ x ∈ nodes, ¬ IsRoot x := by
  unfold lastRoot
  rw [List.getLast?_eq_none_iff, List.filter_eq_nil_iff]
  simp only [decide_eq_true_eq]

theorem mem_of_lastRoot {nodes : List SymNode} {root : SymNode} (h : lastRoot nodes = some root) :
    root ∈ nodes ∧ IsRoot root := by
  have hmem := List.mem_filter.mp (List.mem_of_getLast? h)
  exact ⟨hmem.1, of_decide_eq_true hmem.2⟩

/-- What the matches of one key come to. -/
structure GroupItem (visit : SymVisit) (nodes : List SymNode) (item : CompletionItem) :
    Prop where
  sym : item.sym ∈ nodes
  size : visit.groupSymbols = true → item.size = wrapInt nodes.length
  one : visit.groupSymbols = false → item.size = 1
  rep : visit.groupSymbols = true → ∀ root, lastRoot nodes = some root → item.sym = root
  last : visit.groupSymbols = false → nodes.getLast? = some item.sym

/-- The representative is a root if there is one. -/
theorem GroupItem.root {visit : SymVisit} (hgroup : visit.groupSymbols = true)
    {nodes : List SymNode} {item : CompletionItem} (h : GroupItem visit nodes item)
    (hroot : ∃ node ∈ nodes, IsRoot node) : IsRoot item.sym := by
  obtain ⟨x, hx, hr⟩ := hroot
  cases hlast : lastRoot nodes with
  | none => exact absurd hr (lastRoot_eq_none_iff.mp hlast x hx)
  | some root =>
      rw [h.rep hgroup root hlast]
      exact (mem_of_lastRoot hlast).2

/-- A match behind others, in a map that groups. -/
theorem GroupItem.concat {visit : SymVisit} (hgroup : visit.groupSymbols = true)
    {nodes : List SymNode} {item : CompletionItem} (h : GroupItem visit nodes item)
    (node : SymNode) : GroupItem visit (nodes ++ [node]) (mergeItem visit (some item) node) := by
  have hne : visit.groupSymbols ≠ false := by rw [hgroup]; decide
  rw [mergeItem_some hgroup]
  refine ⟨?_, fun _ => ?_, fun hf => absurd hf hne, fun _ root hroot => ?_,
    fun hf => absurd hf hne⟩
  · dsimp only
    split
    · exact List.mem_append_right _ (List.mem_singleton_self node)
    · exact List.mem_append_left _ h.sym
  · show wrapInt (item.size + 1) = _
    rw [h.size hgroup, wrapInt_wrapInt_add, List.length_append]
    rfl
  · rw [lastRoot_concat] at hroot
    dsimp only
    by_cases hnode : IsRoot node
    · rw [if_pos hnode] at hroot ⊢
      exact Option.some.inj hroot
    · rw [if_neg hnode] at hroot ⊢
      exact h.rep hgroup root hroot

theorem mergeItems_spec (visit : SymVisit) (nodes : List SymNode) :
    (nodes = [] ∧ Table.mergeAll (mergeItem visit) none nodes = none) ∨
      ∃ item, Table.mergeAll (mergeItem visit) none nodes = some item ∧
        GroupItem visit nodes item := by
  induction nodes using List.reverseRecOn with
  | nil => exact Or.inl ⟨rfl, rfl⟩
  | append_singleton nodes node ih =>
      refine Or.inr ⟨_, Table.mergeAll_concat _ _ _ _, ?_⟩
      by_cases hgroup : visit.groupSymbols = true
      · obtain ⟨rfl, hnone⟩ | ⟨item, hitem, h⟩ := ih
        · rw [hnone, mergeItem_none]
          refine ⟨List.mem_singleton_self node, fun _ => ?_, fun _ => rfl,
            fun _ root hroot => ?_, fun _ => rfl⟩
          · show (1 : Int) = wrapInt 1
            exact ((wrapInt_eq_self_iff Int.one_nonneg).mpr (by omega)).symm
          · exact (List.mem_singleton.mp (mem_of_lastRoot hroot).1).symm
        · rw [hitem]
          exact h.concat hgroup node
      · rw [mergeItem_ungrouped (Bool.eq_false_iff.mpr hgroup)]
        exact ⟨List.mem_append_right _ (List.mem_singleton_self node),
          fun hc => absurd hc hgroup, fun _ => rfl, fun hc => absurd hc hgroup,
          fun _ => List.getLast?_concat⟩

/-- The item of a key and its matches. -/
theorem find?_visited_some {c : AnalyzerCtx} {visit : SymVisit} {id : SrcId} {key : Str}
    {item : CompletionItem}
    (h : ((c.nodes (offered c id)).foldl (visitDefinition visit) .empty).find? key = some item) :
    GroupItem visit (group c visit id key) item := by
  rw [find?_visited] at h
  obtain ⟨-, hnone⟩ | ⟨item', hitem, hspec⟩ := mergeItems_spec visit (group c visit id key)
  · rw [hnone] at h
    cases h
  · obtain rfl := Option.some.inj (hitem.symm.trans h)
    exact hspec

/-- A key with a match has an item. -/
theorem exists_item {c : AnalyzerCtx} {visit : SymVisit} {id : SrcId} {key : Str}
    {node : SymNode} (h : node ∈ group c visit id key) :
    ∃ item, ((c.nodes (offered c id)).foldl (visitDefinition visit) .empty).find? key =
      some item := by
  rw [find?_visited]
  obtain ⟨hnil, -⟩ | ⟨item, hitem, -⟩ := mergeItems_spec visit (group c visit id key)
  · rw [hnil] at h
    cases h
  · exact ⟨item, hitem⟩

/-! ## Nothing is lost -/

/-- Symbols that share a key are local together. -/
theorem local_of_symbolKey {visit : SymVisit} {x y : SymNode}
    (h : symbolKey visit x = symbolKey visit y) :
    labelScope x.name = visit.currentScope ↔ labelScope y.name = visit.currentScope := by
  unfold symbolKey at h
  by_cases hgroup : visit.groupSymbols = true
  · rw [if_pos hgroup, if_pos hgroup] at h
    exact local_of_same_key h
  · rw [if_neg hgroup, if_neg hgroup] at h
    rw [h]

/-- The items of a key outside of the current scope. -/
theorem formatItem_remote {item : CompletionItem} (h : item.isLocal = false) (range : Range) :
    formatItem .fullName range item =
      (if item.size = 1 ∨ (IsRoot item.sym ∧ item.sym.semantics ≠ .asEnum ∧
          item.sym.semantics ≠ .asDevicePort) then
        [serializeSymbol item item.sym.name range]
      else []) ++ (if item.size > 1 then [serializeModule item range] else []) := by
  unfold formatItem
  dsimp only
  rw [h, if_neg Bool.false_ne_true]
  simp only [decide_eq_true_eq]
  rfl

/-- A candidate has an item unless it is remote, its counter has left the positive numbers, and
    no root that is offered for itself represents it. -/
theorem formatItem_fullName_ne_nil_iff (item : CompletionItem) (range : Range) :
    formatItem .fullName range item ≠ [] ↔ item.isLocal = true ∨ 0 < item.size ∨
      IsRoot item.sym ∧ item.sym.semantics ≠ .asEnum ∧ item.sym.semantics ≠ .asDevicePort := by
  by_cases hlocal : item.isLocal = true
  · have hitems : formatItem .fullName range item ≠ [] := by
      unfold formatItem
      dsimp only
      rw [if_pos hlocal]
      exact List.cons_ne_nil _ _
    exact iff_of_true hitems (Or.inl hlocal)
  · rw [formatItem_remote (Bool.eq_false_iff.mpr hlocal), Ne, List.append_eq_nil_iff,
      not_and_or]
    by_cases hrep : IsRoot item.sym ∧ item.sym.semantics ≠ .asEnum ∧
        item.sym.semantics ≠ .asDevicePort
    · rw [if_pos (Or.inr hrep)]
      exact iff_of_true (Or.inl (List.cons_ne_nil _ _)) (Or.inr (Or.inr hrep))
    · by_cases hone : item.size = 1
      · rw [if_pos (Or.inl hone)]
        exact iff_of_true (Or.inl (List.cons_ne_nil _ _)) (Or.inr (Or.inl (by omega)))
      · rw [if_neg (by simpa [hone] using hrep)]
        by_cases hmany : item.size > 1
        · rw [if_pos hmany]
          exact iff_of_true (Or.inr (List.cons_ne_nil _ _)) (Or.inr (Or.inl (by omega)))
        · rw [if_neg hmany]
          have hnot : ¬ 0 < item.size := by omega
          simp [hlocal, hnot, hrep]

/-- A completion map holds the matches of a visit. -/
structure HoldsMatches (c : AnalyzerCtx) (visit : SymVisit) (id : SrcId) (map : CompletionMap) :
    Prop where
  represented : ∀ d ∈ offered c id, ∃ node : SymNode, c.syms[d]? = some node ∧
    (matchSymbol node visit.filter = true →
      ∃ item, map.find? (symbolKey visit node) = some item)
  matched : ∀ key item, map.find? key = some item → item.sym ∈ group c visit id key
  unmixed : ∀ key item, map.find? key = some item → ∀ node ∈ group c visit id key,
    item.isLocal = decide (labelScope node.name = visit.currentScope)
  rooted : visit.groupSymbols = true → ∀ key item, map.find? key = some item →
    item.isLocal = false → (∃ node ∈ group c visit id key, IsRoot node) → IsRoot item.sym

/-- Each of its keys is offered besides. -/
structure Covers (c : AnalyzerCtx) (visit : SymVisit) (id : SrcId) (map : CompletionMap) : Prop
    extends HoldsMatches c visit id map where
  emitted : ∀ key item, map.find? key = some item → ∀ range,
    formatItem .fullName range item ≠ []

theorem visit_holdsMatches {E : Env} {c : AnalyzerCtx} (hc : CtxWF E c) (hg : c.srcGraph.Acyclic)
    (visit : SymVisit) (id : SrcId) :
    HoldsMatches c visit id ((c.nodes (offered c id)).foldl (visitDefinition visit) .empty) where
  represented := by
    intro d hd
    obtain ⟨node, hn⟩ := hc.exists_offered hd
    exact ⟨node, hn, fun hm => exists_item (mem_group_iff.mpr ⟨⟨d, hd, hn⟩, hm, rfl⟩)⟩
  matched := fun key item h => (find?_visited_some h).sym
  unmixed := by
    intro key item h node hnode
    have hitem := (visitSymbolsFromRoot_candidates (visitSymbolsFromRoot_eq hg visit .empty id)
      key item h).isLocal
    have hkey : symbolKey visit item.sym = symbolKey visit node :=
      (mem_group_iff.mp (find?_visited_some h).sym).2.2.trans (mem_group_iff.mp hnode).2.2.symm
    rw [hitem, decide_eq_decide]
    exact local_of_symbolKey hkey
  rooted := fun hgroup key item h _ => (find?_visited_some h).root hgroup

/-- A number that a counter of 32 bits holds as a positive one. -/
def CountsPositive (n : Nat) : Prop := 0 < n % 2 ^ 32 ∧ n % 2 ^ 32 < 2 ^ 31

theorem countsPositive_iff (n : Nat) : CountsPositive n ↔ 0 < wrapInt n := by
  unfold CountsPositive wrapInt
  omega

/-- Where the visit groups and a match is outside of the current scope, the number of times that
    the matches of its key are met is one the counter holds, or the last root among them is neither
    an enum nor a device port. -/
def KeysOffered (c : AnalyzerCtx) (visit : SymVisit) (id : SrcId) : Prop :=
  visit.groupSymbols = true → ∀ key, ∀ node ∈ group c visit id key,
    labelScope node.name ≠ visit.currentScope →
      CountsPositive (group c visit id key).length ∨
        ∃ root, lastRoot (group c visit id key) = some root ∧ root.semantics ≠ .asEnum ∧
          root.semantics ≠ .asDevicePort

/-- The representative is a root that is offered for itself. -/
theorem GroupItem.offersRoot_iff {visit : SymVisit} (hgroup : visit.groupSymbols = true)
    {nodes : List SymNode} {item : CompletionItem} (h : GroupItem visit nodes item) :
    (IsRoot item.sym ∧ item.sym.semantics ≠ .asEnum ∧ item.sym.semantics ≠ .asDevicePort) ↔
      ∃ root, lastRoot nodes = some root ∧ root.semantics ≠ .asEnum ∧
        root.semantics ≠ .asDevicePort := by
  constructor
  · rintro ⟨hroot, hsem⟩
    cases hlast : lastRoot nodes with
    | none => exact absurd hroot (lastRoot_eq_none_iff.mp hlast _ h.sym)
    | some root =>
        rw [h.rep hgroup root hlast] at hsem
        exact ⟨root, rfl, hsem⟩
  · rintro ⟨root, hlast, hsem⟩
    rw [h.rep hgroup root hlast]
    exact ⟨(mem_of_lastRoot hlast).2, hsem⟩

/-- Every key of the map is offered exactly if no counter goes wrong. -/
theorem emitted_iff {E : Env} {c : AnalyzerCtx} (hc : CtxWF E c) (hg : c.srcGraph.Acyclic)
    (visit : SymVisit) (id : SrcId) :
    (∀ key item, ((c.nodes (offered c id)).foldl (visitDefinition visit) .empty).find? key =
        some item → ∀ range, formatItem .fullName range item ≠ []) ↔ KeysOffered c visit id := by
  have hrep := visit_holdsMatches hc hg visit id
  constructor
  · intro hall hgroup key node hnode hremote
    obtain ⟨item, hitem⟩ := exists_item hnode
    have hgi := find?_visited_some hitem
    have hlocal : ¬ item.isLocal = true := by
      rw [hrep.unmixed key item hitem node hnode]
      simpa using hremote
    have hemit := (formatItem_fullName_ne_nil_iff item _).mp
      (hall key item hitem ⟨⟨0, 0⟩, ⟨0, 0⟩⟩)
    rw [countsPositive_iff, ← hgi.size hgroup, ← hgi.offersRoot_iff hgroup]
    exact hemit.resolve_left hlocal
  · intro hkeys key item hitem range
    have hgi := find?_visited_some hitem
    rw [formatItem_fullName_ne_nil_iff]
    cases hlocal : item.isLocal with
    | true => exact Or.inl rfl
    | false =>
        refine Or.inr ?_
        cases hgroup : visit.groupSymbols with
        | false =>
            rw [hgi.one hgroup]
            exact Or.inl Int.one_pos
        | true =>
            rw [hgi.size hgroup, ← countsPositive_iff, hgi.offersRoot_iff hgroup]
            refine hkeys hgroup key item.sym hgi.sym ?_
            have hflag := hrep.unmixed key item hitem item.sym hgi.sym
            rw [hlocal] at hflag
            exact of_decide_eq_false hflag.symm

/-- In every reachable state, for every file and every filter, the visit looks at the definitions
    of the files below a root above the file, and the map represents what matches. Every key of it
    is offered exactly if the counters of those outside of the current scope hold out. -/
theorem completion_covers_iff {E : Env} {m : Machine}
    (h : Reachable (step E) Machine.init m) (visit : SymVisit) (id : SrcId) :
    (∀ d, d ∈ offered m.analyzer.current id ↔
      ∃ root file src, m.analyzer.current.srcGraph.RootOf root id ∧
        ReflTransGen m.analyzer.current.srcGraph.Adj root file ∧
        m.analyzer.current.srcs[file]? = some src ∧ d ∈ src.definitions) ∧
    ∃ map, visitSymbolsFromRoot m.analyzer.current visit
        (m.analyzer.current.srcGraph.edges.length + 1) .empty id = some map ∧
      map = (m.analyzer.current.nodes (offered m.analyzer.current id)).foldl
        (visitDefinition visit) .empty ∧
      HoldsMatches m.analyzer.current visit id map ∧
      (Covers m.analyzer.current visit id map ↔ KeysOffered m.analyzer.current visit id) := by
  have hc := (reachable_ok h).current
  have hg := (reachable_graphOK h).current.acyclic
  have hrep := visit_holdsMatches hc hg visit id
  have hemitted := emitted_iff hc hg visit id
  refine ⟨fun d => ?_, _, visitSymbolsFromRoot_eq hg visit .empty id, rfl, hrep,
    fun hcovers => hemitted.mp hcovers.emitted, fun hkeys => ⟨hrep, hemitted.mpr hkeys⟩⟩
  rw [mem_offered_iff]
  constructor
  · rintro ⟨file, hfile, hd⟩
    obtain ⟨root, hroot, hleads⟩ := (mem_visited_iff hg).mp hfile
    obtain ⟨src, hs, hd⟩ := mem_definitionsAt_iff.mp hd
    exact ⟨root, file, src, hroot, hleads, hs, hd⟩
  · rintro ⟨root, file, src, hroot, hleads, hs, hd⟩
    exact ⟨file, (mem_visited_iff hg).mpr ⟨root, hroot, hleads⟩,
      mem_definitionsAt_iff.mpr ⟨src, hs, hd⟩⟩

/-- The visit of a request. -/
def requestVisit (c : AnalyzerCtx) (ctx : CompletionCtx) (ch : Choice) : SymVisit where
  filter := makeFilter ctx ch (currentScope c ctx)
  currentScope := currentScope c ctx
  groupSymbols := ch.groupSymbols

theorem candidates_eq (c : AnalyzerCtx) (ctx : CompletionCtx) (ch : Choice) :
    candidates c ctx ch = visitSymbolsFromRoot c (requestVisit c ctx ch)
      (c.srcGraph.edges.length + 1) .empty ctx.sourceId := rfl

/-- A request after a run, up to its candidates. -/
def requestAfter (ls : List Label) (docs : Docs) (path : Str) (position : Position) :
    Option (Machine × CompletionCtx × Choice × CompletionMap) :=
  (run (step asciiEnv) Machine.init ls).bind fun m =>
    (completionCtx asciiEnv m.analyzer.current docs path position).bind fun ctx =>
      (choose ctx).bind fun ch =>
        (candidates m.analyzer.current ctx ch).map fun map => (m, ctx, ch, map)

theorem requestAfter_some {ls : List Label} {docs : Docs} {path : Str} {position : Position}
    {m : Machine} {ctx : CompletionCtx} {ch : Choice} {map : CompletionMap}
    (h : requestAfter ls docs path position = some (m, ctx, ch, map)) :
    run (step asciiEnv) Machine.init ls = some m ∧
      completionCtx asciiEnv m.analyzer.current docs path position = some ctx ∧
      choose ctx = some ch ∧ candidates m.analyzer.current ctx ch = some map := by
  obtain ⟨m', hm, h⟩ := Option.bind_eq_some_iff.mp h
  obtain ⟨ctx', hctx, h⟩ := Option.bind_eq_some_iff.mp h
  obtain ⟨ch', hch, h⟩ := Option.bind_eq_some_iff.mp h
  obtain ⟨map', hmap, h⟩ := Option.map_eq_some_iff.mp h
  simp only [Prod.mk.injEq] at h
  obtain ⟨rfl, rfl, rfl, rfl⟩ := h
  exact ⟨hm, hctx, hch, hmap⟩

/-! ### A chain of files -/

/-- The names of fifteen files. -/
def chainNames : Str := ascii "abcdefghijklmno"

/-- Each of them includes the one before, and `a` includes `z`, where the label `foo` and its
    sub-label `>bar` follow a comment. -/
def chainDocs : Docs where
  entries :=
    chainNames.map (fun name => ([name], [0x7e, if name = 0x61 then 0x7a else name - 1])) ++
      [(ascii "z", ascii "( ! ) @foo &>bar")]
  nodup := by decide +kernel

def chainLabel (name : Str) (id : UInt16) (columns : Nat × Nat)
    (h : cStr name = name := by decide) : AsmSym where
  type := .label
  name := name
  name_cStr := h
  nameIsGenerated := false
  id := id
  region := ⟨⟨1, ascii "z"⟩,
    ⟨⟨1, columns.1 + 1, columns.1⟩, ⟨1, columns.2 + 1, columns.2⟩⟩⟩

/-- The pass of a file of the chain comes to all those before it. -/
def chainPass (k : Nat) : List Label :=
  .enter :: ((chainNames.take (k + 1)).reverse.map fun name =>
      Label.event (.fopen chainDocs ⟨1, [name]⟩ none)) ++
    [.event (.fopen chainDocs ⟨1, ascii "z"⟩ none),
      .event (.putSymbol 256 (chainLabel (ascii "foo") 1 (6, 10) cStr_foo) []),
      .event (.putSymbol 256 (chainLabel (ascii "foo/>bar") 2 (11, 16)) []),
      .asmDone true, .chessDone, .leave]

def chainRun : List Label :=
  .start chainDocs :: (List.range 15).flatMap chainPass ++ [.skip, .finish]

/-- The paths down from a file to the fifteen nodes of `foo/>bar`; `z` has the number 15. -/
def chainSum (file : SrcId) : Nat := if file = 15 then 15 else 15 * 2 ^ file

/-- The routes from a file up to `o` and down to these nodes. -/
def chainRoutes (file : SrcId) : Nat :=
  if file = 15 then 15 * 2 ^ 28 else 15 * 2 ^ 14 * 2 ^ (13 - file)

/-- What is asked of the state after the run, for a request behind the `!`. -/
structure ChainState (c : AnalyzerCtx) (visit : SymVisit) : Prop where
  down : c.srcGraph.WeighsDown (List.range 16)
    (fun file => ((definitionsAt c file).filter (hits c visit (ascii "foo"))).length) chainSum
  up : c.srcGraph.WeighsUp (List.range 16) chainSum chainRoutes
  names : ∀ node ∈ c.syms, matchSymbol node visit.filter = true → node.name = ascii "foo/>bar"

instance (c : AnalyzerCtx) (visit : SymVisit) : Decidable (ChainState c visit) :=
  decidable_of_iff
    (((∀ v ∈ List.range 16, ∀ x ∈ c.srcGraph.outEdges v, x ∈ List.range 16) ∧
      ∀ v ∈ List.range 16, chainSum v =
        ((definitionsAt c v).filter (hits c visit (ascii "foo"))).length +
          totalOf chainSum (c.srcGraph.outEdges v)) ∧
      ((∀ v ∈ List.range 16, ∀ x ∈ c.srcGraph.inEdges v, x ∈ List.range 16) ∧
        ∀ v ∈ List.range 16, chainRoutes v =
          if c.srcGraph.inEdges v = [] then chainSum v
          else totalOf chainRoutes (c.srcGraph.inEdges v)) ∧
      ∀ node ∈ c.syms, matchSymbol node visit.filter = true → node.name = ascii "foo/>bar")
    ⟨fun ⟨hd, hu, hn⟩ => ⟨⟨hd.1, hd.2⟩, ⟨hu.1, hu.2⟩, hn⟩,
      fun h => ⟨⟨h.down.closed, h.down.eq⟩, ⟨h.up.closed, h.up.eq⟩, h.names⟩⟩

/-- A request in `z` behind the `!`, where fifteen passes have left as many nodes of `foo/>bar`,
    on 2^28 routes each: the counter of `foo` has wrapped, and nothing is offered for it. -/
theorem completion_drops_key :
    ∃ m ctx ch map item, run (step asciiEnv) Machine.init chainRun = some m ∧
      completionCtx asciiEnv m.analyzer.current chainDocs (ascii "z") ⟨0, 3⟩ = some ctx ∧
      choose ctx = some ch ∧ ch.formatType = .fullName ∧
      candidates m.analyzer.current ctx ch = some map ∧
      map.find? (ascii "foo") = some item ∧ item.size = -268435456 ∧
      (∀ range, formatItem .fullName range item = []) ∧
      ¬ Covers m.analyzer.current (requestVisit m.analyzer.current ctx ch) ctx.sourceId map := by
  have hout : (run (step asciiEnv) Machine.init chainRun).bind (fun m =>
      (completionCtx asciiEnv m.analyzer.current chainDocs (ascii "z") ⟨0, 3⟩).bind fun ctx =>
        (choose ctx).map fun ch => (ctx.sourceId, ch.formatType, ch.groupSymbols,
          currentScope m.analyzer.current ctx, decide (ChainState m.analyzer.current
            (requestVisit m.analyzer.current ctx ch)))) =
      some (15, .fullName, true, ascii "RESET", true) := by
    decide +kernel
  obtain ⟨m, hm, hout⟩ := Option.bind_eq_some_iff.mp hout
  obtain ⟨ctx, hctx, hout⟩ := Option.bind_eq_some_iff.mp hout
  obtain ⟨ch, hch, hout⟩ := Option.map_eq_some_iff.mp hout
  simp only [Prod.mk.injEq, decide_eq_true_eq] at hout
  obtain ⟨hid, hformat, hgroup, hscope, hstate⟩ := hout
  have hc := (reachable_ok ⟨_, hm⟩).current
  have hg := (reachable_graphOK ⟨_, hm⟩).current.acyclic
  generalize hvisit : requestVisit m.analyzer.current ctx ch = visit at hstate
  have hgrouped : visit.groupSymbols = true := by rw [← hvisit]; exact hgroup
  have hcurrent : visit.currentScope = ascii "RESET" := by rw [← hvisit]; exact hscope
  have hlength : (group m.analyzer.current visit 15 (ascii "foo")).length = 15 * 2 ^ 28 := by
    rw [length_group_eq_total]
    exact total_family hg hstate.down hstate.up (Nat.lt_succ_self _) (by simp)
  have hnames : ∀ node ∈ group m.analyzer.current visit 15 (ascii "foo"),
      node.name = ascii "foo/>bar" := by
    intro node hnode
    obtain ⟨⟨d, -, hn⟩, hmatch, -⟩ := mem_group_iff.mp hnode
    exact hstate.names node (List.mem_of_getElem? hn) hmatch
  obtain ⟨node, hnode⟩ := List.exists_mem_of_length_pos (by rw [hlength]; decide)
  obtain ⟨item, hitem⟩ := exists_item hnode
  have hgi := find?_visited_some hitem
  have hsize : item.size = -268435456 := by
    rw [hgi.size hgrouped, hlength]
    decide
  have hlocal : ¬ item.isLocal = true := by
    rw [(visit_holdsMatches hc hg visit 15).unmixed _ item hitem node hnode, hnames node hnode,
      hcurrent]
    decide
  have hroot : ¬ IsRoot item.sym := by
    unfold IsRoot
    rw [hnames item.sym hgi.sym]
    decide
  have hnone : ∀ range, formatItem .fullName range item = [] := by
    intro range
    by_contra hne
    rcases (formatItem_fullName_ne_nil_iff item range).mp hne with h | h | h
    · exact hlocal h
    · rw [hsize] at h
      exact absurd h (by decide)
    · exact hroot h.1
  refine ⟨m, ctx, ch, _, item, hm, hctx, hch, hformat, ?_, hitem, hsize, hnone, fun hcovers => ?_⟩
  · rw [candidates_eq, hvisit, hid]
    exact visitSymbolsFromRoot_eq hg visit .empty 15
  · rw [hvisit, hid] at hcovers
    exact hcovers.emitted _ item hitem ⟨⟨0, 0⟩, ⟨0, 0⟩⟩ (hnone _)

/-! ### A file that two others include -/

/-- `a` and `b` include `f`, where the label `foo` follows an empty prefix. -/
def twiceDocs : Docs :=
  ((Table.empty.put (ascii "a") (ascii "~f")).put (ascii "b") (ascii "~f")).put (ascii "f")
    (ascii "; @foo")

def twiceLabel : AsmSym where
  type := .label
  name := ascii "foo"
  name_cStr := cStr_foo
  nameIsGenerated := false
  id := 1
  region := ⟨⟨3, ascii "f"⟩, ⟨⟨1, 3, 2⟩, ⟨1, 7, 6⟩⟩⟩

/-- The pass of one of the two. -/
def twicePass (entry : CStr) : List Label :=
  [.enter, .event (.fopen twiceDocs entry none),
    .event (.fopen twiceDocs ⟨3, ascii "f"⟩ none), .event (.putSymbol 256 twiceLabel []),
    .asmDone true, .chessDone, .leave]

def twiceRun : List Label :=
  .start twiceDocs :: (twicePass ⟨1, ascii "a"⟩ ++ twicePass ⟨2, ascii "b"⟩ ++ [.skip, .finish])

/-- All labels, grouped, outside of any label. -/
def allLabels : SymVisit where
  filter :=
    { labelsOnly := true, precedingLabels := false, subroutineOnly := false,
      prefixPos := ⟨0, 0⟩, addrMin := 0, addrMax := 0xffff, typed := [] }
  currentScope := ascii "RESET"
  groupSymbols := true

/-- The label is in the map of a visit from `f`, under a root, and offered. -/
theorem completion_covers_twice :
    ∃ m map item, run (step asciiEnv) Machine.init twiceRun = some m ∧
      visitSymbolsFromRoot m.analyzer.current allLabels
        (m.analyzer.current.srcGraph.edges.length + 1) .empty 2 = some map ∧
      map.find? (ascii "foo") = some item ∧ IsRoot item.sym ∧
      ∀ range, formatItem .fullName range item ≠ [] := by
  have hout : (run (step asciiEnv) Machine.init twiceRun).bind (fun m =>
      (m.analyzer.current.syms[1]?).map fun node =>
        (decide (1 ∈ offered m.analyzer.current 2), matchSymbol node allLabels.filter,
          node.name, (offered m.analyzer.current 2).length)) =
      some (true, true, ascii "foo", 4) := by
    decide
  obtain ⟨m, hm, hout⟩ := Option.bind_eq_some_iff.mp hout
  obtain ⟨node, hn, hout⟩ := Option.map_eq_some_iff.mp hout
  simp only [Prod.mk.injEq, decide_eq_true_eq] at hout
  obtain ⟨hmem, hmatch, hname, hlength⟩ := hout
  -- four visits of a definition do not get the counter out of its range
  have hkeys : KeysOffered m.analyzer.current allLabels 2 := by
    intro _ key node hnode _
    have hpos := List.length_pos_of_mem hnode
    have hle : (group m.analyzer.current allLabels 2 key).length ≤ 4 := by
      rw [← hlength]
      exact length_group_le _ _ _ _
    refine Or.inl ?_
    unfold CountsPositive
    omega
  obtain ⟨-, map, hmap, -, -, hiff⟩ := completion_covers_iff ⟨_, hm⟩ allLabels 2
  have hcovers := hiff.mpr hkeys
  have hkey : symbolKey allLabels node = ascii "foo" := by
    unfold symbolKey
    rw [hname]
    decide
  have hin : node ∈ group m.analyzer.current allLabels 2 (ascii "foo") :=
    mem_group_iff.mpr ⟨⟨1, hmem, hn⟩, hmatch, hkey⟩
  obtain ⟨node', hn', hitem⟩ := hcovers.represented 1 hmem
  obtain rfl := Option.some.inj (hn.symm.trans hn')
  obtain ⟨item, hitem⟩ := hitem hmatch
  rw [hkey] at hitem
  refine ⟨m, map, item, hm, hmap, hitem, hcovers.rooted rfl _ item hitem ?_ ⟨node, hin, ?_⟩,
    hcovers.emitted _ item hitem⟩
  · rw [hcovers.unmixed _ item hitem node hin, hname]
    decide
  · unfold IsRoot
    rw [hname]
    decide

/-! ## What the sizes count -/

/-- The distinct matches of a key. -/
def distinctMatches (c : AnalyzerCtx) (visit : SymVisit) (id : SrcId) (key : Str) : List SymId :=
  ((offered c id).filter (hits c visit key)).dedup

def rootAt (c : AnalyzerCtx) (d : SymId) : Bool := (c.syms[d]?).any fun node => IsRoot node

theorem rootAt_iff {c : AnalyzerCtx} {d : SymId} {node : SymNode} (hn : c.syms[d]? = some node) :
    rootAt c d = true ↔ IsRoot node := by
  unfold rootAt
  rw [hn, Option.any_some, decide_eq_true_eq]

theorem mem_distinctMatches_iff {c : AnalyzerCtx} {visit : SymVisit} {id : SrcId} {key : Str}
    {d : SymId} :
    d ∈ distinctMatches c visit id key ↔ d ∈ offered c id ∧ hits c visit key d = true := by
  unfold distinctMatches
  rw [List.mem_dedup, List.mem_filter]

/-- The sizes of a map count distinct matches, a key with one match is offered as its symbol, and
    the detail of a module is the number of distinct matches that are no roots. -/
structure CountsOnce (c : AnalyzerCtx) (visit : SymVisit) (id : SrcId) (map : CompletionMap) :
    Prop where
  size : ∀ key item, map.find? key = some item →
    item.size = (distinctMatches c visit id key).length
  single : ∀ key item, map.find? key = some item → item.isLocal = false →
    (distinctMatches c visit id key).length = 1 → ∀ range,
      formatItem .fullName range item = [serializeSymbol item item.sym.name range]
  detail : ∀ key item, map.find? key = some item → ∀ range,
    ∀ entry ∈ formatItem .fullName range item, entry.kind = 9 →
      entry.detail = some (ascii "( " ++
        decimal ((distinctMatches c visit id key).filter fun d => ¬ rootAt c d = true).length ++
          ascii " symbols )")

/-- No two matches outside of the current scope share a name without a slash. -/
def UniqueRoots (c : AnalyzerCtx) (visit : SymVisit) (id : SrcId) : Prop :=
  ∀ d ∈ offered c id, ∀ d' ∈ offered c id, ∀ node node' : SymNode,
    c.syms[d]? = some node → c.syms[d']? = some node' →
    matchSymbol node visit.filter = true → matchSymbol node' visit.filter = true →
    node.name = node'.name → slash ∉ node.name → node.name ≠ visit.currentScope → d = d'

/-- Every file with a match is reached on one route, and the roots are unique. -/
structure OneRoute (c : AnalyzerCtx) (visit : SymVisit) (id : SrcId) : Prop where
  route : ∀ file ∈ visited c id,
    (∃ d ∈ definitionsAt c file, ∃ node : SymNode, c.syms[d]? = some node ∧
      matchSymbol node visit.filter = true) → (visited c id).count file = 1
  root : UniqueRoots c visit id

/-- The routes to the matches of a key, without the first one to each, come to a multiple of 2^32,
    the matches are fewer than 2^31, and the roots are unique. -/
structure RoutesWrap (c : AnalyzerCtx) (visit : SymVisit) (id : SrcId) : Prop where
  surplus : ∀ key,
    2 ^ 32 ∣ (group c visit id key).length - (distinctMatches c visit id key).length
  few : ∀ key, (distinctMatches c visit id key).length < 2 ^ 31
  root : UniqueRoots c visit id

theorem length_distinctMatches_le (c : AnalyzerCtx) (visit : SymVisit) (id : SrcId) (key : Str) :
    (distinctMatches c visit id key).length ≤ (group c visit id key).length := by
  rw [length_group]
  exact (List.dedup_sublist _).length_le

/-- Where no match of a key is met twice there is no surplus. -/
theorem length_group_eq_iff (c : AnalyzerCtx) (visit : SymVisit) (id : SrcId) (key : Str) :
    (group c visit id key).length = (distinctMatches c visit id key).length ↔
      ((offered c id).filter (hits c visit key)).Nodup := by
  rw [length_group, ← List.dedup_eq_self]
  constructor
  · intro hlen
    exact (List.dedup_sublist _).eq_of_length hlen.symm
  · intro he
    unfold distinctMatches
    rw [he]

/-- The size of a key is the number of its distinct matches if the surplus is none to the
    counter. -/
theorem size_eq_iff {c : AnalyzerCtx} {visit : SymVisit} (hgroup : visit.groupSymbols = true)
    {id : SrcId} {key : Str} {item : CompletionItem}
    (h : GroupItem visit (group c visit id key) item) :
    item.size = (distinctMatches c visit id key).length ↔
      2 ^ 32 ∣ (group c visit id key).length - (distinctMatches c visit id key).length ∧
        (distinctMatches c visit id key).length < 2 ^ 31 := by
  have hle := length_distinctMatches_le c visit id key
  rw [h.size hgroup]
  unfold wrapInt
  omega

/-- The sizes are the numbers of distinct matches if that holds for every key. -/
theorem sizes_eq_iff (c : AnalyzerCtx) {visit : SymVisit} (hgroup : visit.groupSymbols = true)
    (id : SrcId) :
    (∀ key item, ((c.nodes (offered c id)).foldl (visitDefinition visit) .empty).find? key =
        some item → item.size = (distinctMatches c visit id key).length) ↔
      ∀ key,
        2 ^ 32 ∣ (group c visit id key).length - (distinctMatches c visit id key).length ∧
          (distinctMatches c visit id key).length < 2 ^ 31 := by
  constructor
  · intro hsize key
    cases hnodes : group c visit id key with
    | nil =>
        have hle := length_distinctMatches_le c visit id key
        rw [hnodes, List.length_nil] at hle
        rw [Nat.le_zero.mp hle]
        exact ⟨Nat.dvd_zero _, by omega⟩
    | cons node nodes =>
        have hnode : node ∈ group c visit id key := hnodes ▸ List.mem_cons_self
        obtain ⟨item, hitem⟩ := exists_item hnode
        rw [← hnodes]
        exact (size_eq_iff hgroup (find?_visited_some hitem)).mp (hsize key item hitem)
  · intro hall key item hitem
    exact (size_eq_iff hgroup (find?_visited_some hitem)).mpr (hall key)

/-- No match is met twice if every file with a match has one route. -/
theorem nodup_hits_iff {E : Env} {c : AnalyzerCtx} (hc : CtxWF E c) (visit : SymVisit)
    (id : SrcId) :
    (∀ key, ((offered c id).filter (hits c visit key)).Nodup) ↔
      ∀ file ∈ visited c id, (∃ d ∈ definitionsAt c file, ∃ node : SymNode,
        c.syms[d]? = some node ∧ matchSymbol node visit.filter = true) →
          (visited c id).count file = 1 := by
  constructor
  · rintro hnodup file hfile ⟨d, hd, node, hn, hmatch⟩
    have hoffered : d ∈ offered c id := mem_offered_iff.mpr ⟨file, hfile, hd⟩
    have hhit : hits c visit (symbolKey visit node) d = true := (hits_iff hn).mpr ⟨hmatch, rfl⟩
    have hcount := List.count_eq_one_of_mem (hnodup (symbolKey visit node))
      (List.mem_filter.mpr ⟨hoffered, hhit⟩)
    rw [List.count_filter hhit, hc.count_offered hd] at hcount
    exact hcount
  · intro hroute key
    refine List.nodup_iff_count_le_one.mpr fun d => ?_
    by_cases hmem : d ∈ (offered c id).filter (hits c visit key)
    · obtain ⟨hoffered, hhit⟩ := List.mem_filter.mp hmem
      obtain ⟨file, hfile, hd⟩ := mem_offered_iff.mp hoffered
      obtain ⟨node, hn, -⟩ := hc.exists_definition hd
      rw [List.count_filter hhit, hc.count_offered hd,
        hroute file hfile ⟨d, hd, node, hn, ((hits_iff hn).mp hhit).1⟩]
    · rw [List.count_eq_zero_of_not_mem hmem]
      exact Nat.zero_le 1

/-- While no counter wraps, the surplus is a multiple of 2^32 only if there is one route each. -/
theorem routesWrap_iff_oneRoute {E : Env} {c : AnalyzerCtx} (hc : CtxWF E c) {visit : SymVisit}
    {id : SrcId} (hsmall : ∀ key, (group c visit id key).length < 2 ^ 31) :
    RoutesWrap c visit id ↔ OneRoute c visit id := by
  have hle := length_distinctMatches_le c visit id
  constructor
  · intro h
    refine ⟨(nodup_hits_iff hc visit id).mp fun key => ?_, h.root⟩
    have hsurplus := h.surplus key
    have hlt := hsmall key
    have hge := hle key
    exact (length_group_eq_iff c visit id key).mp (by omega)
  · intro h
    have heq : ∀ key, (group c visit id key).length = (distinctMatches c visit id key).length :=
      fun key => (length_group_eq_iff c visit id key).mpr
        ((nodup_hits_iff hc visit id).mpr h.route key)
    refine ⟨fun key => ?_, fun key => heq key ▸ hsmall key, h.root⟩
    rw [heq, Nat.sub_self]
    exact Nat.dvd_zero _

theorem isRoot_iff (node : SymNode) : IsRoot node ↔ slash ∉ node.name := eq_labelScope_iff _

/-- The key of a root outside of the current scope is its name. -/
theorem symbolKey_root {visit : SymVisit} {node : SymNode} (h : IsRoot node) :
    symbolKey visit node = node.name := by
  unfold symbolKey
  rw [← h, ite_self, ite_self]

theorem decimal_natCast (n : Nat) : decimal n = digits n := by
  have hrepr : (toString (n : Int)).toList = Nat.toDigits 10 n := String.toList_ofList
  unfold decimal ascii digits
  rw [hrepr]

theorem decimal_inj {m n : Nat} (h : decimal m = decimal n) : m = n := by
  rw [decimal_natCast, decimal_natCast] at h
  rw [← digitsValue_digits m, h, digitsValue_digits]

theorem kind_serializeSymbol (item : CompletionItem) (label : Str) (range : Range) :
    (serializeSymbol item label range).kind ≠ 9 := by
  unfold serializeSymbol itemKind
  dsimp only
  split <;> decide

/-- The only module among the items of a key. -/
theorem mem_formatItem_module {item : CompletionItem} {range : Range} {entry : CompletionEntry}
    (h : entry ∈ formatItem .fullName range item) (hkind : entry.kind = 9) :
    item.isLocal = false ∧ 1 < item.size ∧ entry = serializeModule item range := by
  cases hlocal : item.isLocal with
  | true =>
      unfold formatItem at h
      dsimp only at h
      rw [hlocal, if_pos rfl, List.mem_singleton] at h
      rw [h] at hkind
      exact absurd hkind (kind_serializeSymbol _ _ _)
  | false =>
      rw [formatItem_remote hlocal] at h
      rcases List.mem_append.mp h with h | h
      · split at h
        · rw [List.mem_singleton.mp h] at hkind
          exact absurd hkind (kind_serializeSymbol _ _ _)
        · cases h
      · split at h
        · rename_i hsize
          exact ⟨rfl, hsize, List.mem_singleton.mp h⟩
        · cases h

theorem serializeModule_detail (item : CompletionItem) (range : Range) :
    (serializeModule item range).detail =
      some (ascii "( " ++ decimal (wrapInt (item.size - if IsRoot item.sym then 1 else 0)) ++
        ascii " symbols )") := by
  unfold serializeModule
  simp only [decide_eq_true_eq]
  rfl

/-! ### Roots -/

/-- The distinct matches of a key that are roots. -/
def rootMatches (c : AnalyzerCtx) (visit : SymVisit) (id : SrcId) (key : Str) : List SymId :=
  (distinctMatches c visit id key).filter (rootAt c)

theorem rootMatches_le_one_iff (c : AnalyzerCtx) (visit : SymVisit) (id : SrcId) (key : Str) :
    (rootMatches c visit id key).length ≤ 1 ↔
      ∀ d ∈ rootMatches c visit id key, ∀ d' ∈ rootMatches c visit id key, d = d' := by
  have hnodup : (rootMatches c visit id key).Nodup := (List.nodup_dedup _).filter _
  rw [← List.toFinset_card_of_nodup hnodup, Finset.card_le_one]
  simp only [List.mem_toFinset]

theorem length_distinctMatches (c : AnalyzerCtx) (visit : SymVisit) (id : SrcId) (key : Str) :
    (distinctMatches c visit id key).length = (rootMatches c visit id key).length +
      ((distinctMatches c visit id key).filter fun d => ¬ rootAt c d = true).length := by
  rw [List.length_eq_length_filter_add (rootAt c)]
  congr 2
  exact List.filter_congr fun d _ => by simp

/-- A root among the matches of a key is a node with that name. -/
theorem mem_rootMatches_iff {E : Env} {c : AnalyzerCtx} (hc : CtxWF E c) {visit : SymVisit}
    {id : SrcId} {key : Str} {d : SymId} :
    d ∈ rootMatches c visit id key ↔ d ∈ offered c id ∧ ∃ node : SymNode,
      c.syms[d]? = some node ∧ matchSymbol node visit.filter = true ∧ IsRoot node ∧
        node.name = key := by
  unfold rootMatches
  rw [List.mem_filter, mem_distinctMatches_iff]
  constructor
  · rintro ⟨⟨hd, hhit⟩, hroot⟩
    obtain ⟨node, hn⟩ := hc.exists_offered hd
    have hroot : IsRoot node := (rootAt_iff hn).mp hroot
    obtain ⟨hmatch, hkey⟩ := (hits_iff hn).mp hhit
    exact ⟨hd, node, hn, hmatch, hroot, (symbolKey_root hroot).symm.trans hkey⟩
  · rintro ⟨hd, node, hn, hmatch, hroot, hname⟩
    refine ⟨⟨hd, (hits_iff hn).mpr ⟨hmatch, ?_⟩⟩, (rootAt_iff hn).mpr hroot⟩
    exact (symbolKey_root hroot).trans hname

/-- The representative of a key is a root if there is one. -/
theorem isRoot_sym_iff {E : Env} {c : AnalyzerCtx} (hc : CtxWF E c) {visit : SymVisit}
    (hgroup : visit.groupSymbols = true) {id : SrcId} {key : Str} {item : CompletionItem}
    (h : GroupItem visit (group c visit id key) item) :
    IsRoot item.sym ↔ rootMatches c visit id key ≠ [] := by
  constructor
  · intro hroot
    obtain ⟨⟨d, hd, hn⟩, hmatch, hkey⟩ := mem_group_iff.mp h.sym
    exact List.ne_nil_of_mem ((mem_rootMatches_iff hc).mpr
      ⟨hd, item.sym, hn, hmatch, hroot, (symbolKey_root hroot).symm.trans hkey⟩)
  · intro hne
    obtain ⟨d, hd⟩ := List.exists_mem_of_ne_nil _ hne
    obtain ⟨hd, node, hn, hmatch, hroot, hname⟩ := (mem_rootMatches_iff hc).mp hd
    refine h.root hgroup ⟨node, ?_, hroot⟩
    exact mem_group_iff.mpr ⟨⟨d, hd, hn⟩, hmatch, (symbolKey_root hroot).trans hname⟩

/-- Given its size, the detail of a key with several matches counts those that are no roots if
    there is at most one root. -/
theorem detail_iff {E : Env} {c : AnalyzerCtx} (hc : CtxWF E c) {visit : SymVisit}
    (hgroup : visit.groupSymbols = true) {id : SrcId} {key : Str} {item : CompletionItem}
    (h : GroupItem visit (group c visit id key) item)
    (hsize : item.size = (distinctMatches c visit id key).length)
    (hfew : (distinctMatches c visit id key).length < 2 ^ 31) (range : Range) :
    (serializeModule item range).detail = some (ascii "( " ++
        decimal ((distinctMatches c visit id key).filter fun d => ¬ rootAt c d = true).length ++
          ascii " symbols )") ↔ (rootMatches c visit id key).length ≤ 1 := by
  have hsum := length_distinctMatches c visit id key
  rw [serializeModule_detail, Option.some.injEq, List.append_cancel_right_eq,
    List.append_cancel_left_eq, hsize]
  by_cases hroot : IsRoot item.sym
  · have hroots : 1 ≤ (rootMatches c visit id key).length :=
      List.length_pos_iff.mpr ((isRoot_sym_iff hc hgroup h).mp hroot)
    have hsub : wrapInt (((distinctMatches c visit id key).length : Int) - 1) =
        ((distinctMatches c visit id key).length - 1 : Nat) := by
      rw [(wrapInt_eq_self_iff (by omega)).mpr (by omega)]
      omega
    rw [if_pos hroot, hsub]
    constructor
    · intro he
      have := decimal_inj he
      omega
    · intro hle
      congr 2
      omega
  · have hroots : (rootMatches c visit id key).length = 0 := by
      rw [List.length_eq_zero_iff]
      by_contra hne
      exact hroot ((isRoot_sym_iff hc hgroup h).mpr hne)
    rw [if_neg hroot, Int.sub_zero, (wrapInt_eq_self_iff (by omega)).mpr (by omega), hsum, hroots,
      Nat.zero_add]
    exact iff_of_true rfl (Nat.zero_le 1)

/-- The map of a whole visit. -/
abbrev wholeMap (c : AnalyzerCtx) (visit : SymVisit) (id : SrcId) : CompletionMap :=
  (c.nodes (offered c id)).foldl (visitDefinition visit) .empty

/-- Two roots of one name outside of the current scope would make a module with a wrong detail. -/
theorem root_unique_of_counts {E : Env} {c : AnalyzerCtx} (hc : CtxWF E c)
    (hg : c.srcGraph.Acyclic) {visit : SymVisit} (hgroup : visit.groupSymbols = true) {id : SrcId}
    (hcounts : CountsOnce c visit id (wholeMap c visit id)) {d d' : SymId}
    (hd : d ∈ offered c id) (hd' : d' ∈ offered c id) {node node' : SymNode}
    (hn : c.syms[d]? = some node) (hn' : c.syms[d']? = some node')
    (hmatch : matchSymbol node visit.filter = true)
    (hmatch' : matchSymbol node' visit.filter = true) (hname : node.name = node'.name)
    (hslash : slash ∉ node.name) (hscope : node.name ≠ visit.currentScope) : d = d' := by
  have hroot : IsRoot node := (isRoot_iff node).mpr hslash
  have hroot' : IsRoot node' := (isRoot_iff node').mpr (hname ▸ hslash)
  have hmem : d ∈ rootMatches c visit id node.name :=
    (mem_rootMatches_iff hc).mpr ⟨hd, node, hn, hmatch, hroot, rfl⟩
  have hmem' : d' ∈ rootMatches c visit id node.name :=
    (mem_rootMatches_iff hc).mpr ⟨hd', node', hn', hmatch', hroot', hname.symm⟩
  -- the key is remote, and two roots make a module
  have hin : node ∈ group c visit id node.name :=
    mem_group_iff.mpr ⟨⟨d, hd, hn⟩, hmatch, symbolKey_root hroot⟩
  obtain ⟨item, hitem⟩ := exists_item hin
  have hlocal : item.isLocal = false := by
    rw [(visit_holdsMatches hc hg visit id).unmixed _ item hitem node hin, ← hroot]
    exact decide_eq_false hscope
  have hsize := hcounts.size _ item hitem
  have hfew := ((size_eq_iff hgroup (find?_visited_some hitem)).mp hsize).2
  by_contra hne
  have hmany : 1 < item.size := by
    have hsum := length_distinctMatches c visit id node.name
    have htwo : ¬ (rootMatches c visit id node.name).length ≤ 1 := fun hle =>
      hne ((rootMatches_le_one_iff _ _ _ _).mp hle d hmem d' hmem')
    omega
  have hdetail := hcounts.detail _ item hitem ⟨⟨0, 0⟩, ⟨0, 0⟩⟩ (serializeModule item _)
    (by
      rw [formatItem_remote hlocal, if_pos hmany]
      exact List.mem_append_right _ (List.mem_singleton_self _)) rfl
  have hle := (detail_iff hc hgroup (find?_visited_some hitem) hsize hfew _).mp hdetail
  exact hne ((rootMatches_le_one_iff _ _ _ _).mp hle d hmem d' hmem')

/-- A remote key has at most one root match where the roots are unique. -/
theorem UniqueRoots.rootMatches_le_one {E : Env} {c : AnalyzerCtx} (hc : CtxWF E c)
    (hg : c.srcGraph.Acyclic) {visit : SymVisit} {id : SrcId} (hone : UniqueRoots c visit id)
    {key : Str} {item : CompletionItem} (hitem : (wholeMap c visit id).find? key = some item)
    (hlocal : item.isLocal = false) : (rootMatches c visit id key).length ≤ 1 := by
  refine (rootMatches_le_one_iff _ _ _ _).mpr fun d hd d' hd' => ?_
  obtain ⟨hd, node, hn, hmatch, hroot, hname⟩ := (mem_rootMatches_iff hc).mp hd
  obtain ⟨hd', node', hn', hmatch', -, hname'⟩ := (mem_rootMatches_iff hc).mp hd'
  have hin : node ∈ group c visit id key :=
    mem_group_iff.mpr ⟨⟨d, hd, hn⟩, hmatch, (symbolKey_root hroot).trans hname⟩
  have hremote : node.name ≠ visit.currentScope := by
    have hflag := (visit_holdsMatches hc hg visit id).unmixed key item hitem node hin
    rw [hlocal, ← hroot] at hflag
    exact of_decide_eq_false hflag.symm
  exact hone d hd d' hd' node node' hn hn' hmatch hmatch' (hname.trans hname'.symm)
    ((isRoot_iff node).mp hroot) hremote

/-- In every reachable state, for every file and every grouped visit, the sizes, the symbols
    offered for single matches and the details of modules count every match once exactly if the
    routes beyond the first do not show in the counters and no two roots share a name. As long as
    no match is met 2^31 times, these are the visits that reach every file with a match on one
    route. -/
theorem group_sizes_iff {E : Env} {m : Machine} (h : Reachable (step E) Machine.init m)
    {visit : SymVisit} (hgroup : visit.groupSymbols = true) (id : SrcId) :
    ∃ map, visitSymbolsFromRoot m.analyzer.current visit
        (m.analyzer.current.srcGraph.edges.length + 1) .empty id = some map ∧
      (CountsOnce m.analyzer.current visit id map ↔ RoutesWrap m.analyzer.current visit id) ∧
      ((∀ key, (group m.analyzer.current visit id key).length < 2 ^ 31) →
        (CountsOnce m.analyzer.current visit id map ↔
          OneRoute m.analyzer.current visit id)) := by
  have hc := (reachable_ok h).current
  have hg := (reachable_graphOK h).current.acyclic
  have hiff : CountsOnce m.analyzer.current visit id (wholeMap m.analyzer.current visit id) ↔
      RoutesWrap m.analyzer.current visit id := by
    constructor
    · intro hcounts
      have hall := (sizes_eq_iff _ hgroup id).mp hcounts.size
      refine ⟨fun key => (hall key).1, fun key => (hall key).2, ?_⟩
      intro d hd d' hd' node node' hn hn' hmatch hmatch' hname hslash hscope
      exact root_unique_of_counts hc hg hgroup hcounts hd hd' hn hn' hmatch hmatch' hname hslash
        hscope
    · intro hwrap
      have hsizes := (sizes_eq_iff _ hgroup id).mpr fun key => ⟨hwrap.surplus key, hwrap.few key⟩
      refine ⟨hsizes, fun key item hitem hlocal hsingle range => ?_,
        fun key item hitem range entry hentry hkind => ?_⟩
      · have hone : item.size = 1 := by
          rw [hsizes key item hitem, hsingle]
          rfl
        rw [formatItem_remote hlocal, hone, if_pos (Or.inl rfl), if_neg (Int.lt_irrefl 1),
          List.append_nil]
      · obtain ⟨hlocal, -, rfl⟩ := mem_formatItem_module hentry hkind
        exact (detail_iff hc hgroup (find?_visited_some hitem) (hsizes key item hitem)
          (hwrap.few key) range).mpr (hwrap.root.rootMatches_le_one hc hg hitem hlocal)
  exact ⟨_, visitSymbolsFromRoot_eq hg visit .empty id, hiff,
    fun hsmall => hiff.trans (routesWrap_iff_oneRoute hc hsmall)⟩

/-! ### The shared file again -/

/-- After the pass for `a` alone every file is reached on one route. -/
theorem group_sizes_once :
    ∃ m map, run (step asciiEnv) Machine.init (.start twiceDocs :: twicePass ⟨1, ascii "a"⟩) =
        some m ∧
      visitSymbolsFromRoot m.analyzer.current allLabels
        (m.analyzer.current.srcGraph.edges.length + 1) .empty 2 = some map ∧
      CountsOnce m.analyzer.current allLabels 2 map := by
  have hout : (run (step asciiEnv) Machine.init
      (.start twiceDocs :: twicePass ⟨1, ascii "a"⟩)).map (fun m =>
        (visited m.analyzer.current 2, offered m.analyzer.current 2)) = some ([0, 2], [0]) := by
    decide
  obtain ⟨m, hm, hout⟩ := Option.map_eq_some_iff.mp hout
  obtain ⟨hvisited, hoffered⟩ := Prod.mk.inj hout
  have hgroup : allLabels.groupSymbols = true := rfl
  have honce : ∀ file ∈ ([0, 2] : List SrcId), ([0, 2] : List SrcId).count file = 1 := by decide
  have hsmall : ∀ key, (group m.analyzer.current allLabels 2 key).length < 2 ^ 31 := by
    intro key
    have hle := length_group_le m.analyzer.current allLabels 2 key
    rw [hoffered, List.length_singleton] at hle
    omega
  obtain ⟨map, hmap, -, hiff⟩ := group_sizes_iff ⟨_, hm⟩ hgroup 2
  refine ⟨m, map, hm, hmap, (hiff hsmall).mpr ⟨fun file hfile _ => ?_, ?_⟩⟩
  · rw [hvisited] at hfile ⊢
    exact honce file hfile
  · intro d hd d' hd' node node' _ _ _ _ _ _ _
    rw [hoffered] at hd hd'
    rw [List.mem_singleton.mp hd, List.mem_singleton.mp hd']

/-- A request in `f` when `a` and `b` both include it: two nodes, counted on two routes each. -/
theorem group_sizes_count_routes :
    ∃ m ctx ch map item, run (step asciiEnv) Machine.init twiceRun = some m ∧
      completionCtx asciiEnv m.analyzer.current twiceDocs (ascii "f") ⟨0, 1⟩ = some ctx ∧
      choose ctx = some ch ∧ ch.groupSymbols = true ∧
      candidates m.analyzer.current ctx ch = some map ∧
      map.find? (ascii "foo") = some item ∧ item.size = 4 ∧
      (distinctMatches m.analyzer.current (requestVisit m.analyzer.current ctx ch) ctx.sourceId
        (ascii "foo")).length = 2 ∧
      ¬ CountsOnce m.analyzer.current (requestVisit m.analyzer.current ctx ch) ctx.sourceId
        map := by
  have hout : (requestAfter twiceRun twiceDocs (ascii "f") ⟨0, 1⟩).bind (fun r =>
      (r.2.2.2.find? (ascii "foo")).map fun item =>
        (r.2.2.1.groupSymbols, item.size, (distinctMatches r.1.analyzer.current
          (requestVisit r.1.analyzer.current r.2.1 r.2.2.1) r.2.1.sourceId
          (ascii "foo")).length)) = some (true, 4, 2) := by
    decide
  obtain ⟨⟨m, ctx, ch, map⟩, hr, hout⟩ := Option.bind_eq_some_iff.mp hout
  obtain ⟨hm, hctx, hch, hmap⟩ := requestAfter_some hr
  obtain ⟨item, hitem, hout⟩ := Option.map_eq_some_iff.mp hout
  simp only [Prod.mk.injEq] at hout
  obtain ⟨hgroup, hsize, hdistinct⟩ := hout
  refine ⟨m, ctx, ch, map, item, hm, hctx, hch, hgroup, hmap, hitem, hsize, hdistinct,
    fun hcounts => ?_⟩
  have heq := hcounts.size _ item hitem
  rw [hsize, hdistinct] at heq
  omega

end BuxnLs.Analysis
