/-
  `graph.h`: an edge stands in the out-list of one node and in the in-list of another, threaded
  through the same record. `Mirrors m es` says of all nodes at once that their lists hold the
  edges of `es`, newest first; `buxn_ls_graph_add_edge` puts one edge in front of two lists and
  touches no record that is in a list (`Mirrors.addEdge`). So after any calls both walks visit
  what the calls created (`walk_created`), and the two views agree (`edges_mirror`).
-/
import BuxnLs.Lib.Thread
import BuxnLs.Model.Memory

namespace BuxnLs.Model

open BuxnLs.Lib

/-- `buxn_ls_node_base_t` is a part of source nodes and of symbol nodes. -/
def Obj.isNode : Obj → Bool
  | src _ => true
  | sym _ => true
  | _ => false

def Obj.edge? : Obj → Option EdgeObj
  | edge o => some o
  | _ => none

/-- The two lists that an edge is in. -/
inductive EdgeDir where
  | out
  | into
deriving DecidableEq

namespace EdgeDir

/-- The field of a node with the first edge. -/
def head : EdgeDir → Field
  | out => .outEdges
  | into => .inEdges

/-- The field of an edge with the one behind it. -/
def next : EdgeDir → EdgeObj → Ptr
  | out => EdgeObj.nextOut
  | into => EdgeObj.nextIn

/-- The end of an edge that has it in its list. -/
def node {α : Type} : EdgeDir → α × α → α
  | out => Prod.fst
  | into => Prod.snd

end EdgeDir

namespace Memory

def contentAt (m : Memory) (p : Addr) : Option Obj := (m.heap.read p).map Cell.content

def IsNode (m : Memory) (p : Addr) : Prop := (m.contentAt p).any Obj.isNode = true

instance (m : Memory) (p : Addr) : Decidable (m.IsNode p) := inferInstanceAs (Decidable (_ = _))

def edgeAt (m : Memory) (p : Addr) : Option EdgeObj := (m.contentAt p).bind Obj.edge?

def nextEdge (m : Memory) (d : EdgeDir) (p : Addr) : Ptr := (m.edgeAt p).bind d.next

/-- `for (edge = node->out_edges; edge != NULL; edge = edge->next_out)`, and with `in`. -/
def walkEdges (m : Memory) (d : EdgeDir) (fuel : Nat) (node : Addr) : Option (List Addr) :=
  follow (m.nextEdge d) fuel (m.get (some node) d.head)

/-- Calls of `buxn_ls_graph_add_edge`, with the nodes that they get. -/
def addEdges (m : Memory) : List (Addr × Addr) → Memory
  | [] => m
  | c :: calls => (m.addEdge (some c.1) (some c.2)).addEdges calls

/-- The edges that the calls return, with the nodes that they were created with. -/
def newEdges (m : Memory) : List (Addr × Addr) → List (Addr × Addr × Addr)
  | [] => []
  | c :: calls =>
    (m.heap.cells.length, c) :: (m.addEdge (some c.1) (some c.2)).newEdges calls

/-- The created edges that have `n` at the end in question. -/
def edgesOf (d : EdgeDir) (es : List (Addr × Addr × Addr)) (n : Addr) : List Addr :=
  (es.filter fun e => d.node e.2 = n).map Prod.fst

end Memory

end BuxnLs.Model

namespace BuxnLs.Analysis

open BuxnLs.Lib BuxnLs.Model

/-! ## One call -/

theorem contentAt_alloc (m : Memory) (o : Obj) (p : Addr) :
    (m.alloc o).1.contentAt p = if p = m.heap.cells.length then some o else m.contentAt p := by
  unfold Memory.contentAt Memory.alloc
  rw [Heap.read_alloc]
  split <;> rfl

theorem contentAt_set (m : Memory) (q : Addr) (f : Field) (v : Ptr) (p : Addr) :
    (m.set (some q) f v).contentAt p =
      if q = p then (m.contentAt p).map (Obj.set v f) else m.contentAt p := by
  unfold Memory.contentAt Memory.set
  dsimp only [Option.elim_some]
  rw [Heap.read_update]
  split
  · rw [Option.map_map, Option.map_map]
    rfl
  · rfl

theorem contentAt_none_of_le {m : Memory} {p : Addr} (h : m.heap.cells.length ≤ p) :
    m.contentAt p = none := by
  unfold Memory.contentAt Heap.read
  rw [List.getElem?_eq_none h]
  rfl

theorem lt_of_contentAt {m : Memory} {p : Addr} {o : Obj} (h : m.contentAt p = some o) :
    p < m.heap.cells.length := by
  rcases Nat.lt_or_ge p m.heap.cells.length with hlt | hge
  · exact hlt
  · rw [contentAt_none_of_le hge] at h
    cases h

theorem isNode_iff {m : Memory} {p : Addr} :
    m.IsNode p ↔ ∃ o, m.contentAt p = some o ∧ o.isNode = true := by
  unfold Memory.IsNode
  rw [Option.any_eq_true]

theorem get_some (m : Memory) (p : Addr) (f : Field) :
    m.get (some p) f = (m.contentAt p).bind (Obj.get f) := by
  unfold Memory.get Memory.contentAt
  rw [Option.bind_some, Option.bind_map]
  rfl

/-- Setting the first edge of a list changes that field of a node and nothing else of it. -/
theorem get_set_head {o : Obj} (h : o.isNode = true) (d d' : EdgeDir) (v : Ptr) :
    (Obj.set v d'.head o).get d.head = if d' = d then v else o.get d.head := by
  cases o with
  | src o => cases d <;> cases d' <;> rfl
  | sym o => cases d <;> cases d' <;> rfl
  | bytes => cases h
  | edge o => cases h

theorem isNode_set (o : Obj) (d : EdgeDir) (v : Ptr) : (Obj.set v d.head o).isNode = o.isNode := by
  cases o <;> cases d <;> rfl

theorem edge?_set (o : Obj) (d : EdgeDir) (v : Ptr) : (Obj.set v d.head o).edge? = o.edge? := by
  cases o <;> cases d <;> rfl

theorem edgeAt_set (m : Memory) (q : Addr) (d : EdgeDir) (v : Ptr) (p : Addr) :
    (m.set (some q) d.head v).edgeAt p = m.edgeAt p := by
  unfold Memory.edgeAt
  rw [contentAt_set]
  split
  · rw [Option.bind_map]
    exact congrArg _ (funext fun o => edge?_set o d v)
  · rfl

theorem isNode_memory_set (m : Memory) (q : Addr) (d : EdgeDir) (v : Ptr) (p : Addr) :
    (m.set (some q) d.head v).IsNode p ↔ m.IsNode p := by
  unfold Memory.IsNode
  rw [contentAt_set]
  split
  · rw [Option.any_map]
    simp only [isNode_set]
  · rfl

theorem get_memory_set {m : Memory} {p : Addr} (hp : m.IsNode p) (q : Addr) (d d' : EdgeDir)
    (v : Ptr) :
    (m.set (some q) d'.head v).get (some p) d.head =
      if q = p ∧ d' = d then v else m.get (some p) d.head := by
  obtain ⟨o, ho, hnode⟩ := isNode_iff.mp hp
  rw [get_some, get_some, contentAt_set, ho]
  by_cases hq : q = p
  · rw [if_pos hq, Option.map_some, Option.bind_some, Option.bind_some, get_set_head hnode]
    simp only [hq, true_and]
  · rw [if_neg hq, if_neg (fun h => hq h.1)]

theorem isNode_alloc_edge (m : Memory) (o : EdgeObj) (p : Addr) :
    (m.alloc (.edge o)).1.IsNode p ↔ m.IsNode p := by
  unfold Memory.IsNode
  rw [contentAt_alloc]
  split
  · rename_i hp
    rw [contentAt_none_of_le (Nat.le_of_eq hp.symm)]
    rfl
  · rfl

theorem edgeAt_alloc_edge (m : Memory) (o : EdgeObj) (p : Addr) :
    (m.alloc (.edge o)).1.edgeAt p = if p = m.heap.cells.length then some o else m.edgeAt p := by
  unfold Memory.edgeAt
  rw [contentAt_alloc]
  split <;> rfl

theorem get_alloc_edge {m : Memory} {p : Addr} (hp : m.IsNode p) (o : EdgeObj) (f : Field) :
    (m.alloc (.edge o)).1.get (some p) f = m.get (some p) f := by
  obtain ⟨x, hx, -⟩ := isNode_iff.mp hp
  rw [get_some, get_some, contentAt_alloc, if_neg (Nat.ne_of_lt (lt_of_contentAt hx))]

/-- The record of a call: the first edges of the two lists become the ones behind it. -/
def newEdgeObj (m : Memory) (a b : Addr) : EdgeObj where
  nextIn := m.get (some b) .inEdges
  nextOut := m.get (some a) .outEdges
  fromNode := some a
  toNode := some b

theorem addEdge_eq (m : Memory) (a b : Addr) :
    m.addEdge (some a) (some b) =
      ((m.alloc (.edge (newEdgeObj m a b))).1.set (some a) EdgeDir.out.head
        (some m.heap.cells.length)).set (some b) EdgeDir.into.head
          (some m.heap.cells.length) := rfl

theorem isNode_addEdge (m : Memory) (a b p : Addr) :
    (m.addEdge (some a) (some b)).IsNode p ↔ m.IsNode p := by
  rw [addEdge_eq, isNode_memory_set, isNode_memory_set, isNode_alloc_edge]

theorem edgeAt_addEdge (m : Memory) (a b p : Addr) :
    (m.addEdge (some a) (some b)).edgeAt p =
      if p = m.heap.cells.length then some (newEdgeObj m a b) else m.edgeAt p := by
  rw [addEdge_eq, edgeAt_set, edgeAt_set, edgeAt_alloc_edge]

/-- The new edge is the first one in the lists of its two ends. -/
theorem get_addEdge {m : Memory} {p : Addr} (hp : m.IsNode p) (a b : Addr) (d : EdgeDir) :
    (m.addEdge (some a) (some b)).get (some p) d.head =
      if d.node (a, b) = p then some m.heap.cells.length else m.get (some p) d.head := by
  have halloc := (isNode_alloc_edge m (newEdgeObj m a b) p).mpr hp
  have hout := (isNode_memory_set _ a .out (some m.heap.cells.length) p).mpr halloc
  rw [addEdge_eq, get_memory_set hout, get_memory_set halloc, get_alloc_edge hp]
  cases d with
  | out => by_cases hap : a = p <;> simp [EdgeDir.node, hap]
  | into => by_cases hbp : b = p <;> simp [EdgeDir.node, hbp]

theorem nextEdge_addEdge (m : Memory) (a b : Addr) (d : EdgeDir) (p : Addr) :
    (m.addEdge (some a) (some b)).nextEdge d p =
      if p = m.heap.cells.length then m.get (some (d.node (a, b))) d.head
      else m.nextEdge d p := by
  unfold Memory.nextEdge
  rw [edgeAt_addEdge]
  split
  · cases d <;> rfl
  · rfl

/-! ## Any number of calls -/

/-- The lists of all nodes hold the edges of `es`, the newest first. -/
structure Mirrors (m : Memory) (es : List (Addr × Addr × Addr)) : Prop where
  ends : ∀ e ∈ es, ∃ o, m.edgeAt e.1 = some o ∧ o.fromNode = some e.2.1 ∧ o.toNode = some e.2.2
  distinct : (es.map Prod.fst).Nodup
  threads : ∀ d n, m.IsNode n →
    Thread (m.nextEdge d) (m.get (some n) d.head) (Memory.edgesOf d es n)

theorem Mirrors.lt {m : Memory} {es : List (Addr × Addr × Addr)} (h : Mirrors m es)
    {p : Addr} (hp : p ∈ es.map Prod.fst) : p < m.heap.cells.length := by
  obtain ⟨e, he, rfl⟩ := List.mem_map.mp hp
  obtain ⟨o, ho, -⟩ := h.ends e he
  obtain ⟨x, hx, -⟩ := Option.bind_eq_some_iff.mp ho
  exact lt_of_contentAt hx

theorem mem_edgesOf {d : EdgeDir} {es : List (Addr × Addr × Addr)} {n p : Addr} :
    p ∈ Memory.edgesOf d es n ↔ ∃ ends, (p, ends) ∈ es ∧ d.node ends = n := by
  unfold Memory.edgesOf
  simp only [List.mem_map, List.mem_filter, decide_eq_true_eq]
  constructor
  · rintro ⟨e, ⟨he, hn⟩, rfl⟩
    exact ⟨e.2, he, hn⟩
  · rintro ⟨ends, he, hn⟩
    exact ⟨(p, ends), ⟨he, hn⟩, rfl⟩

theorem mem_of_edgesOf {d : EdgeDir} {es : List (Addr × Addr × Addr)} {n p : Addr}
    (h : p ∈ Memory.edgesOf d es n) : p ∈ es.map Prod.fst := by
  obtain ⟨ends, he, -⟩ := mem_edgesOf.mp h
  exact List.mem_map.mpr ⟨_, he, rfl⟩

theorem Mirrors.addEdge {m : Memory} {es : List (Addr × Addr × Addr)} (h : Mirrors m es)
    {a b : Addr} (ha : m.IsNode a) (hb : m.IsNode b) :
    Mirrors (m.addEdge (some a) (some b)) ((m.heap.cells.length, a, b) :: es) := by
  have hold : ∀ p ∈ es.map Prod.fst, p ≠ m.heap.cells.length := fun p hp =>
    Nat.ne_of_lt (h.lt hp)
  refine ⟨?_, ?_, ?_⟩
  · intro e he
    rw [edgeAt_addEdge]
    rcases List.mem_cons.mp he with rfl | he
    · rw [if_pos rfl]
      exact ⟨_, rfl, rfl, rfl⟩
    · rw [if_neg (hold _ (List.mem_map.mpr ⟨e, he, rfl⟩))]
      exact h.ends e he
  · rw [List.map_cons]
    exact List.nodup_cons.mpr ⟨fun hm => hold _ hm rfl, h.distinct⟩
  · intro d n hn
    have hn := (isNode_addEdge m a b n).mp hn
    have hnode : m.IsNode (d.node (a, b)) := by
      cases d with
      | out => exact ha
      | into => exact hb
    have hnext : ∀ p ∈ Memory.edgesOf d es n,
        (m.addEdge (some a) (some b)).nextEdge d p = m.nextEdge d p := by
      intro p hp
      rw [nextEdge_addEdge, if_neg (hold p (mem_of_edgesOf hp))]
    rw [get_addEdge hn]
    by_cases hd : d.node (a, b) = n
    · have hcons : Memory.edgesOf d ((m.heap.cells.length, a, b) :: es) n =
          m.heap.cells.length :: Memory.edgesOf d es n := by
        unfold Memory.edgesOf
        rw [List.filter_cons, if_pos (decide_eq_true hd), List.map_cons]
      rw [if_pos hd, hcons]
      refine (h.threads d n hn).push ?_ hnext
      rw [nextEdge_addEdge, if_pos rfl, hd]
    · have hskip : Memory.edgesOf d ((m.heap.cells.length, a, b) :: es) n =
          Memory.edgesOf d es n := by
        unfold Memory.edgesOf
        rw [List.filter_cons, if_neg (by simpa using hd)]
      rw [if_neg hd, hskip]
      exact (h.threads d n hn).congr hnext

theorem Mirrors.addEdges {m : Memory} {es : List (Addr × Addr × Addr)} (h : Mirrors m es)
    {calls : List (Addr × Addr)} (hcalls : ∀ c ∈ calls, m.IsNode c.1 ∧ m.IsNode c.2) :
    Mirrors (m.addEdges calls) ((m.newEdges calls).reverse ++ es) := by
  induction calls generalizing m es with
  | nil => exact h
  | cons c calls ih =>
      obtain ⟨ha, hb⟩ := hcalls c List.mem_cons_self
      have hrest : ∀ c' ∈ calls, (m.addEdge (some c.1) (some c.2)).IsNode c'.1 ∧
          (m.addEdge (some c.1) (some c.2)).IsNode c'.2 := by
        intro c' hc'
        rw [isNode_addEdge, isNode_addEdge]
        exact hcalls c' (List.mem_cons_of_mem _ hc')
      have hstep := ih (h.addEdge ha hb) hrest
      rw [Memory.addEdges, Memory.newEdges, List.reverse_cons, List.append_assoc]
      exact hstep

/-! ## What the walks visit -/

/-- No node has an edge. -/
def Bare (m : Memory) : Prop := ∀ n, m.IsNode n → ∀ d : EdgeDir, m.get (some n) d.head = none

theorem Bare.mirrors {m : Memory} (h : Bare m) : Mirrors m [] where
  ends := fun _ he => absurd he List.not_mem_nil
  distinct := List.nodup_nil
  threads := fun d n hn => h n hn d

theorem ends_newEdges (m : Memory) (calls : List (Addr × Addr)) :
    (m.newEdges calls).map Prod.snd = calls := by
  induction calls generalizing m with
  | nil => rfl
  | cons c calls ih =>
      rw [Memory.newEdges, List.map_cons, ih]

theorem edgesOf_reverse (d : EdgeDir) (es : List (Addr × Addr × Addr)) (n : Addr) :
    Memory.edgesOf d es.reverse n = (Memory.edgesOf d es n).reverse := by
  unfold Memory.edgesOf
  rw [List.filter_reverse, List.map_reverse]

theorem length_edgesOf_le (d : EdgeDir) (es : List (Addr × Addr × Addr)) (n : Addr) :
    (Memory.edgesOf d es n).length ≤ es.length := by
  unfold Memory.edgesOf
  rw [List.length_map]
  exact List.length_filter_le _ es

/-- A walk ends, and visits the edges of its node in reverse order of creation. -/
theorem walk_created {m : Memory} (hbare : Bare m) {calls : List (Addr × Addr)}
    (hcalls : ∀ c ∈ calls, m.IsNode c.1 ∧ m.IsNode c.2) (d : EdgeDir) {n : Addr}
    (hn : (m.addEdges calls).IsNode n) {fuel : Nat} (hfuel : calls.length ≤ fuel) :
    (m.addEdges calls).walkEdges d fuel n =
      some (Memory.edgesOf d (m.newEdges calls) n).reverse := by
  have hthread := (hbare.mirrors.addEdges hcalls).threads d n hn
  have hlen : (m.newEdges calls).length = calls.length := by
    rw [← List.length_map (f := Prod.snd), ends_newEdges]
  rw [List.append_nil, edgesOf_reverse] at hthread
  refine follow_of_thread hthread ?_
  rw [List.length_reverse]
  have hle := length_edgesOf_le d (m.newEdges calls) n
  omega

/-- The ends of a record tell which of the created edges it is. -/
theorem mem_edgesOf_iff {m : Memory} {es : List (Addr × Addr × Addr)} (h : Mirrors m es)
    {p a b : Addr} {o : EdgeObj} (ho : m.edgeAt p = some o) (ha : o.fromNode = some a)
    (hb : o.toNode = some b) (d : EdgeDir) :
    p ∈ Memory.edgesOf d es (d.node (a, b)) ↔ (p, a, b) ∈ es := by
  rw [mem_edgesOf]
  constructor
  · rintro ⟨ends, he, -⟩
    obtain ⟨o', ho', ha', hb'⟩ := h.ends _ he
    obtain rfl : o' = o := Option.some.inj (ho'.symm.trans ho)
    obtain rfl : ends.1 = a := Option.some.inj (ha'.symm.trans ha)
    obtain rfl : ends.2 = b := Option.some.inj (hb'.symm.trans hb)
    exact he
  · exact fun he => ⟨(a, b), he, rfl⟩

/-- After any calls every walk ends and visits, newest first and each once, the edges that were
    created with its node at that end; an edge is in the list of its source if and only if it is
    in the list of its target. -/
theorem edges_mirror {m : Memory} (hbare : Bare m) {calls : List (Addr × Addr)}
    (hcalls : ∀ c ∈ calls, m.IsNode c.1 ∧ m.IsNode c.2) :
    (∀ d n, (m.addEdges calls).IsNode n → ∀ fuel, calls.length ≤ fuel →
      (m.addEdges calls).walkEdges d fuel n =
        some (Memory.edgesOf d (m.newEdges calls) n).reverse) ∧
    (m.newEdges calls).map Prod.snd = calls ∧ ((m.newEdges calls).map Prod.fst).Nodup ∧
    ∀ p o a b, (m.addEdges calls).edgeAt p = some o → o.fromNode = some a → o.toNode = some b →
      (m.addEdges calls).IsNode a → (m.addEdges calls).IsNode b → ∀ fuel, calls.length ≤ fuel →
        ((∃ l, (m.addEdges calls).walkEdges .out fuel a = some l ∧ p ∈ l) ↔
          ∃ l, (m.addEdges calls).walkEdges .into fuel b = some l ∧ p ∈ l) := by
  have hmirrors := hbare.mirrors.addEdges hcalls
  rw [List.append_nil] at hmirrors
  refine ⟨fun d n hn fuel hfuel => walk_created hbare hcalls d hn hfuel,
    ends_newEdges m calls, ?_, ?_⟩
  · have hdistinct := hmirrors.distinct
    rw [List.map_reverse] at hdistinct
    exact List.nodup_reverse.mp hdistinct
  · intro p o a b ho ha hb hna hnb fuel hfuel
    have hout := mem_edgesOf_iff hmirrors ho ha hb .out
    have hinto := mem_edgesOf_iff hmirrors ho ha hb .into
    rw [edgesOf_reverse] at hout hinto
    rw [walk_created hbare hcalls .out hna hfuel, walk_created hbare hcalls .into hnb hfuel]
    simp only [Option.some.injEq, exists_eq_left']
    exact hout.trans hinto.symm

/-- Two source nodes: `a` includes `b` twice and itself, and `b` includes `a`. -/
theorem edges_mirror_two :
    let m := (Memory.init.addSource (ascii "a")).addSource (ascii "b")
    let m' := m.addEdges [(1, 3), (1, 1), (1, 3), (3, 1)]
    m'.walkEdges .out 4 1 = some [6, 5, 4] ∧ m'.walkEdges .into 4 1 = some [7, 5] := by
  have hbare : Bare ((Memory.init.addSource (ascii "a")).addSource (ascii "b")) := by
    intro n hn d
    obtain ⟨o, ho, -⟩ := isNode_iff.mp hn
    have hlt : n < 4 := lt_of_contentAt ho
    have hheads : ∀ k < 4, ∀ d : EdgeDir,
        ((Memory.init.addSource (ascii "a")).addSource (ascii "b")).get (some k) d.head =
          none := by
      intro k hk d
      cases d <;> revert k <;> decide
    exact hheads n hlt d
  have hcalls : ∀ c ∈ [(1, 3), (1, 1), (1, 3), (3, 1)],
      ((Memory.init.addSource (ascii "a")).addSource (ascii "b")).IsNode c.1 ∧
        ((Memory.init.addSource (ascii "a")).addSource (ascii "b")).IsNode c.2 := by
    decide
  have h := edges_mirror hbare hcalls
  exact ⟨(h.1 .out 1 (by decide) 4 (by decide)).trans (by decide),
    (h.1 .into 1 (by decide) 4 (by decide)).trans (by decide)⟩

end BuxnLs.Analysis
