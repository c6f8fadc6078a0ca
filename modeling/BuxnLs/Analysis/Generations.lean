/-
  Generations do not mix. `Fresh` says that the generation of the current context is closed and
  that the analyzer points into it; every allocation, every link and every copy keeps it
  (`After`), and the swap starts a new generation with nothing in it. `TrackedMachine` runs as
  `Machine` does (`trackedRun_machine`), so the invariant is one of every run of the analysis
  (`generations_do_not_mix`).
-/
import BuxnLs.Analysis.Carry
import BuxnLs.Analysis.Tracked
import Mathlib.Data.List.ReduceOption

namespace BuxnLs.Analysis

open BuxnLs.Lib BuxnLs.Model

/-- `p` points to an object of the current generation. -/
def Here (m : Memory) (p : Addr) : Prop := m.heap.Within m.current.generation p

instance (m : Memory) (p : Addr) : Decidable (Here m p) :=
  inferInstanceAs (Decidable (m.heap.Within _ _))

/-- A pointer that is null, or static, or of the current generation. -/
def HereOrNull (m : Memory) (p : Ptr) : Prop := ∀ q ∈ p, Here m q

/-- The current generation is closed, and the analyzer points into it. -/
structure Fresh (m : Memory) : Prop where
  closed : m.heap.Closed Obj.fields m.current.generation
  srcs : ∀ p ∈ m.current.srcs, Here m p
  syms : ∀ p ∈ m.current.syms, Here m p
  keys : ∀ f p, m.current.keys.find? f = some p → Here m p
  contents : ∀ f p, m.contents.find? f = some p → Here m p
  references : ∀ p ∈ m.references, Here m p
  diagnostics : ∀ d ∈ m.diagnostics, ∀ p ∈ d.fields, Here m p
  older : m.previous.generation < m.current.generation
  latest : m.heap.Regions (· ≤ m.current.generation)

/-- A change of the memory within a run, that keeps it fresh and what was in it. -/
structure After (m m' : Memory) : Prop where
  fresh : Fresh m'
  here : ∀ p, Here m p → Here m' p
  generation : m'.current.generation = m.current.generation

theorem After.refl {m : Memory} (h : Fresh m) : After m m := ⟨h, fun _ hp => hp, rfl⟩

theorem After.trans {a b c : Memory} (h : After a b) (h' : After b c) : After a c :=
  ⟨h'.fresh, fun p hp => h'.here p (h.here p hp), h'.generation.trans h.generation⟩

theorem After.hereOrNull {m m' : Memory} (h : After m m') {p : Ptr} (hp : HereOrNull m p) :
    HereOrNull m' p :=
  fun q hq => h.here q (hp q hq)

theorem hereOrNull_none (m : Memory) : HereOrNull m none := fun q hq => by cases hq

theorem hereOrNull_some {m : Memory} {p : Addr} (hp : Here m p) : HereOrNull m (some p) :=
  fun _ hq => Option.mem_some.mp hq ▸ hp

/-- Only the heap changes, and the generation stays closed. -/
theorem Fresh.of_heap {m : Memory} (h : Fresh m) {heap : Heap Nat Obj}
    (hmono : ∀ p, Here m p → heap.Within m.current.generation p)
    (hclosed : heap.Closed Obj.fields m.current.generation)
    (hlatest : heap.Regions (· ≤ m.current.generation)) : After m { m with heap := heap } where
  fresh :=
    { closed := hclosed
      srcs := fun p hp => hmono p (h.srcs p hp)
      syms := fun p hp => hmono p (h.syms p hp)
      keys := fun f p hp => hmono p (h.keys f p hp)
      contents := fun f p hp => hmono p (h.contents f p hp)
      references := fun p hp => hmono p (h.references p hp)
      diagnostics := fun d hd p hp => hmono p (h.diagnostics d hd p hp)
      older := h.older
      latest := hlatest }
  here := hmono
  generation := rfl

/-! ## Allocations and links -/

theorem alloc_after {m : Memory} (h : Fresh m) {o : Obj} (ho : ∀ p ∈ o.fields, Here m p) :
    After m (m.alloc o).1 ∧ Here (m.alloc o).1 (m.alloc o).2 :=
  ⟨h.of_heap (fun _ hp => Heap.within_alloc hp _ o) (h.closed.alloc ho)
    (h.latest.alloc (Nat.le_refl _) o), Heap.within_alloc_self m.heap _ o⟩

theorem allocBytes_after {m : Memory} (h : Fresh m) :
    After m (m.alloc .bytes).1 ∧ Here (m.alloc .bytes).1 (m.alloc .bytes).2 :=
  alloc_after h fun _ hp => absurd hp List.not_mem_nil

theorem mem_fields_set {v : Ptr} {f : Field} {o : Obj} {p : Addr}
    (h : p ∈ (o.set v f).fields) : p ∈ o.fields ∨ v = some p := by
  cases f <;> cases o <;>
    simp only [Obj.set, Obj.fields, List.reduceOption_mem_iff, List.mem_cons,
      List.not_mem_nil, or_false, eq_comm] at h ⊢ <;> grind

theorem mem_fields_get {f : Field} {o : Obj} {p : Addr} (h : o.get f = some p) :
    p ∈ o.fields := by
  cases f <;> cases o <;>
    simp only [Obj.get, Obj.fields, List.reduceOption_mem_iff, List.mem_cons, reduceCtorEq]
      at h ⊢ <;>
    simp [h]

theorem set_after {m : Memory} (h : Fresh m) (p : Ptr) (f : Field) {v : Ptr}
    (hv : HereOrNull m v) : After m (m.set p f v) := by
  cases p with
  | none => exact .refl h
  | some p =>
      refine h.of_heap (fun _ hq => Heap.within_update p _ hq) (h.closed.update p ?_)
        (h.latest.update p _)
      intro c hc hr q hq
      exact (mem_fields_set hq).elim (h.closed p c hc hr q) fun he => hv q he

theorem get_here {m : Memory} (h : Fresh m) {p : Ptr} (hp : HereOrNull m p) (f : Field) :
    HereOrNull m (m.get p f) := by
  intro q hq
  obtain ⟨c, hc, hfield⟩ := Option.bind_eq_some_iff.mp (Option.mem_def.mp hq)
  obtain ⟨x, hx, hread⟩ := Option.bind_eq_some_iff.mp hc
  obtain ⟨c', hc', hr⟩ := Heap.within_iff.mp (hp x hx)
  obtain rfl : c = c' := Option.some.inj (hread.symm.trans hc')
  exact h.closed x c hread hr q (mem_fields_get hfield)

theorem srcPtr_here {m : Memory} (h : Fresh m) (id : Option SrcId) :
    HereOrNull m (m.srcPtr id) := by
  intro p hp
  obtain ⟨i, -, hi⟩ := Option.bind_eq_some_iff.mp (Option.mem_def.mp hp)
  exact h.srcs p (List.mem_of_getElem? hi)

theorem symPtr_here {m : Memory} (h : Fresh m) (id : Option SymId) :
    HereOrNull m (m.symPtr id) := by
  intro p hp
  obtain ⟨i, -, hi⟩ := Option.bind_eq_some_iff.mp (Option.mem_def.mp hp)
  exact h.syms p (List.mem_of_getElem? hi)

/-! ## Nodes and edges -/

theorem addEdge_after {m : Memory} (h : Fresh m) {a b : Ptr} (ha : HereOrNull m a)
    (hb : HereOrNull m b) : After m (m.addEdge a b) := by
  have hfields : ∀ p ∈ (Obj.edge ⟨m.get b .inEdges, m.get a .outEdges, a, b⟩).fields,
      Here m p := by
    intro p hp
    simp only [Obj.fields, List.reduceOption_mem_iff, List.mem_cons, List.not_mem_nil,
      or_false] at hp
    rcases hp with hp | hp | hp | hp
    · exact get_here h hb _ p hp.symm
    · exact get_here h ha _ p hp.symm
    · exact ha p hp.symm
    · exact hb p hp.symm
  obtain ⟨halloc, hedge⟩ := alloc_after h hfields
  have hout := set_after halloc.fresh a .outEdges (hereOrNull_some hedge)
  have hin := set_after hout.fresh b .inEdges (hout.hereOrNull (hereOrNull_some hedge))
  exact halloc.trans (hout.trans hin)

/-- A file gets a new `uri`, a node that points to it, and the `uri` for its key. -/
theorem addSource_after {m : Memory} (h : Fresh m) (filename : Str) :
    After m (m.addSource filename) := by
  obtain ⟨hbytes, huri⟩ := allocBytes_after h
  obtain ⟨hsrc, hnode⟩ := alloc_after hbytes.fresh
    (o := .src ⟨some (m.alloc .bytes).2, some (m.alloc .bytes).2, none, none, none, none⟩)
    (fun p hp => by
      simp only [Obj.fields, List.reduceOption_mem_iff, List.mem_cons, List.not_mem_nil,
        Option.some.injEq, reduceCtorEq, or_false, or_self] at hp
      exact hp ▸ huri)
  have hboth := hbytes.trans hsrc
  have hf := hboth.fresh
  refine ⟨⟨hf.closed, fun p hp => ?_, hf.syms, fun f p hp => ?_, hf.contents, hf.references,
    hf.diagnostics, hf.older, hf.latest⟩, hboth.here, hboth.generation⟩
  · rcases List.mem_append.mp hp with hp | hp
    · exact hf.srcs p hp
    · exact List.mem_singleton.mp hp ▸ hnode
  · rcases Table.find?_put_eq_some.mp hp with ⟨-, rfl⟩ | ⟨-, hp⟩
    · exact hsrc.here _ huri
    · exact hf.keys f p hp

/-- A symbol whose pointers are in the generation. -/
structure SymHere (m : Memory) (o : SymObj) : Prop where
  name : HereOrNull m o.name
  documentation : HereOrNull m o.documentation
  signature : HereOrNull m o.signature
  source : HereOrNull m o.source
  inEdges : o.inEdges = none
  outEdges : o.outEdges = none

theorem newSym_here {m : Memory} {name source : Ptr} (hn : HereOrNull m name)
    (hs : HereOrNull m source) : SymHere m (Memory.newSym name source) :=
  ⟨hn, hereOrNull_none m, hereOrNull_none m, hs, rfl, rfl⟩

theorem pushSym_after {m : Memory} (h : Fresh m) (head : Field) {o : SymObj}
    (ho : SymHere m o) : After m (m.pushSym head o) := by
  have hfields : ∀ p ∈ (Obj.sym { o with next := m.get o.source head }).fields, Here m p := by
    intro p hp
    simp only [Obj.fields, List.reduceOption_mem_iff, List.mem_cons, List.not_mem_nil, or_false,
      ho.inEdges, ho.outEdges, reduceCtorEq] at hp
    rcases hp with hp | hp | hp | hp | hp
    · exact get_here h ho.source head p hp.symm
    · exact ho.name p hp.symm
    · exact ho.documentation p hp.symm
    · exact ho.signature p hp.symm
    · exact ho.source p hp.symm
  obtain ⟨halloc, hnode⟩ := alloc_after h hfields
  have hlink := set_after halloc.fresh o.source head (hereOrNull_some hnode)
  have hboth := halloc.trans hlink
  have hf := hboth.fresh
  refine ⟨⟨hf.closed, hf.srcs, fun p hp => ?_, hf.keys, hf.contents, hf.references,
    hf.diagnostics, hf.older, hf.latest⟩, hboth.here, hboth.generation⟩
  rcases List.mem_append.mp hp with hp | hp
  · exact hf.syms p hp
  · exact List.mem_singleton.mp hp ▸ hlink.here _ hnode

theorem pushDiagnostic_after {m : Memory} (h : Fresh m) {d : DiagObj}
    (hd : ∀ p ∈ d.fields, Here m p) : After m (m.pushDiagnostic d) := by
  refine ⟨⟨h.closed, h.srcs, h.syms, h.keys, h.contents, h.references, fun e he => ?_, h.older,
    h.latest⟩, fun _ hp => hp, rfl⟩
  rcases List.mem_append.mp he with he | he
  · exact h.diagnostics e he
  · exact List.mem_singleton.mp he ▸ hd

/-- A diagnostic whose source is a literal. -/
theorem pushMessage_after {m : Memory} (h : Fresh m) {uri relatedUri message relatedMessage : Ptr}
    (hu : HereOrNull m uri) (hru : HereOrNull m relatedUri) (hm : HereOrNull m message)
    (hrm : HereOrNull m relatedMessage) :
    After m (m.pushDiagnostic ⟨uri, relatedUri, none, message, relatedMessage⟩) := by
  refine pushDiagnostic_after h fun p hp => ?_
  simp only [DiagObj.fields, List.reduceOption_mem_iff, List.mem_cons, List.not_mem_nil,
    reduceCtorEq, or_false, false_or] at hp
  rcases hp with hp | hp | hp | hp
  · exact hu p hp.symm
  · exact hru p hp.symm
  · exact hm p hp.symm
  · exact hrm p hp.symm

theorem arenaCstrcpy_after {m : Memory} (h : Fresh m) (str : Str) :
    After m (m.arenaCstrcpy str).1 ∧ HereOrNull (m.arenaCstrcpy str).1 (m.arenaCstrcpy str).2 := by
  unfold Memory.arenaCstrcpy
  split
  · obtain ⟨hbytes, hcopy⟩ := allocBytes_after h
    exact ⟨hbytes, hereOrNull_some hcopy⟩
  · exact ⟨.refl h, hereOrNull_none m⟩

/-- The copy of an old symbol has strings of its own and the current source node. -/
theorem copySymbol_after {m : Memory} (h : Fresh m) (sym : SymNode) (source : SrcId) :
    After m (m.copySymbol sym source) := by
  unfold Memory.copySymbol
  obtain ⟨hname, hn⟩ := arenaCstrcpy_after h sym.name
  generalize m.arenaCstrcpy sym.name = c₁ at hname hn ⊢
  obtain ⟨m₁, name⟩ := c₁
  obtain ⟨hdoc, hd⟩ := arenaCstrcpy_after hname.fresh sym.documentation
  dsimp only at hdoc hd ⊢
  generalize m₁.arenaCstrcpy sym.documentation = c₂ at hdoc hd ⊢
  obtain ⟨m₂, documentation⟩ := c₂
  obtain ⟨hsig, hs⟩ := arenaCstrcpy_after hdoc.fresh sym.signature
  dsimp only at hsig hs ⊢
  generalize m₂.arenaCstrcpy sym.signature = c₃ at hsig hs ⊢
  obtain ⟨m₃, signature⟩ := c₃
  dsimp only at hsig hs ⊢
  refine hname.trans (hdoc.trans (hsig.trans (pushSym_after hsig.fresh .definitions ?_)))
  exact ⟨hsig.hereOrNull (hdoc.hereOrNull hn), hsig.hereOrNull hd, hs,
    srcPtr_here hsig.fresh (some source), rfl, rfl⟩

/-! ## The callbacks -/

theorem uriPtr_here {m : Memory} (h : Fresh m) (a : Analyzer) (region : AsmRegion) :
    HereOrNull m (uriPtr a m region) :=
  get_here h (srcPtr_here h _) .uri

theorem captureMemory_after {m : Memory} (h : Fresh m) (filename : Str) :
    After m { (m.alloc .bytes).1 with
      contents := (m.alloc .bytes).1.contents.put filename (m.alloc .bytes).2 } := by
  obtain ⟨hbytes, hcontent⟩ := allocBytes_after h
  have hf := hbytes.fresh
  refine ⟨⟨hf.closed, hf.srcs, hf.syms, hf.keys, fun f p hp => ?_, hf.references,
    hf.diagnostics, hf.older, hf.latest⟩, hbytes.here, hbytes.generation⟩
  rcases Table.find?_put_eq_some.mp hp with ⟨-, rfl⟩ | ⟨-, hp⟩
  · exact hcontent
  · exact hf.contents f p hp

theorem fopenMemory_after (E : Env) (p : Pass) {m : Memory} (h : Fresh m) (docs : Docs)
    (filename : CStr) (disk : Option Str) : After m (fopenMemory E p m docs filename disk) := by
  unfold fopenMemory
  split
  · exact .refl h
  · have hcapture : After m (if (p.analyzer.files.find? filename.chars).isSome then m
        else { (m.alloc .bytes).1 with
          contents := (m.alloc .bytes).1.contents.put filename.chars (m.alloc .bytes).2 }) := by
      split
      · exact .refl h
      · exact captureMemory_after h filename.chars
    dsimp only
    generalize (if (p.analyzer.files.find? filename.chars).isSome then m
        else { (m.alloc .bytes).1 with
          contents := (m.alloc .bytes).1.contents.put filename.chars (m.alloc .bytes).2 }) = m₁
      at hcapture ⊢
    have hsource : After m₁ (if (p.analyzer.current.sources.find? filename.chars).isSome then m₁
        else m₁.addSource filename.chars) := by
      split
      · exact .refl hcapture.fresh
      · exact addSource_after hcapture.fresh filename.chars
    generalize (if (p.analyzer.current.sources.find? filename.chars).isSome then m₁
        else m₁.addSource filename.chars) = m₂ at hsource ⊢
    have hopened := hcapture.trans hsource
    split
    · exact hopened.trans (addEdge_after hopened.fresh (srcPtr_here hopened.fresh _)
        (srcPtr_here hopened.fresh _))
    · exact hopened

/-- The messages of a report are copies, and its locations point to the `uri` of a node. -/
theorem reportMemory_after {m : Memory} (h : Fresh m) (a : Analyzer) (r : Report) :
    After m (reportMemory a m r) := by
  obtain ⟨hbytes, hmessage⟩ := allocBytes_after h
  have huri := uriPtr_here hbytes.fresh a r.region
  unfold reportMemory Memory.arenaStrcpy
  generalize m.alloc .bytes = c₁ at hbytes hmessage huri ⊢
  obtain ⟨m₁, message⟩ := c₁
  dsimp only at hbytes hmessage huri ⊢
  have hplain := pushMessage_after hbytes.fresh huri (hereOrNull_none m₁)
    (hereOrNull_some hmessage) (hereOrNull_none m₁)
  split
  · exact hbytes.trans hplain
  · split
    · obtain ⟨hrelated, hcopy⟩ := allocBytes_after hbytes.fresh
      have huri' := uriPtr_here hrelated.fresh a r.region
      generalize m₁.alloc .bytes = c₂ at hrelated hcopy huri' ⊢
      obtain ⟨m₂, related⟩ := c₂
      dsimp only at hrelated hcopy huri' ⊢
      have hboth := pushMessage_after hrelated.fresh (hrelated.hereOrNull huri) huri'
        (hereOrNull_some (hrelated.here _ hmessage)) (hereOrNull_some hcopy)
      exact hbytes.trans (hrelated.trans hboth)
    · exact hbytes.trans hplain

theorem stackMemory_after {m : Memory} (h : Fresh m) (a : Analyzer) (s : ChessState) :
    After m (stackMemory a m s) := by
  obtain ⟨hbytes, hmessage⟩ := allocBytes_after h
  have hpush := pushMessage_after hbytes.fresh (uriPtr_here hbytes.fresh a s.srcRegion)
    (hereOrNull_none _) (hereOrNull_some hmessage) (hereOrNull_none _)
  exact hbytes.trans hpush

theorem annotationMemory_after {m : Memory} (h : Fresh m) (id : Option SymId) (call : AnnoCall) :
    After m (annotationMemory id m call) := by
  have hslice : HereOrNull m (m.contents.find? call.region.filename.chars) :=
    fun p hp => h.contents _ p hp
  unfold annotationMemory
  dsimp only
  split
  · exact set_after h _ .signature hslice
  · exact set_after h _ .documentation hslice
  · exact .refl h

theorem putSymMemory_after {m : Memory} (h : Fresh m) (a : Analyzer) {name : Addr}
    (hname : Here m name) (sym : AsmSym) : After m (putSymMemory a m name sym) := by
  have hdef : After m (if sym.nameIsGenerated = true then m
      else m.pushDefinition (Memory.newSym (some name)
        (sourcePtr a m sym.region.filename.chars))) := by
    split
    · exact .refl h
    · exact pushSym_after h _ (newSym_here (hereOrNull_some hname) (srcPtr_here h _))
  have href : After m { m with references := m.references ++ [name] } := by
    refine ⟨⟨h.closed, h.srcs, h.syms, h.keys, h.contents, fun p hp => ?_, h.diagnostics,
      h.older, h.latest⟩, fun _ hp => hp, rfl⟩
    rcases List.mem_append.mp hp with hp | hp
    · exact h.references p hp
    · exact List.mem_singleton.mp hp ▸ hname
  unfold putSymMemory
  split
  · exact hdef
  · exact hdef
  · exact href
  · exact href
  · exact .refl h

/-- A fold whose steps change the memory of a state. -/
theorem foldl_after {α σ : Type} (memory : σ → Memory) {f : σ → α → σ}
    (hf : ∀ s x, Fresh (memory s) → After (memory s) (memory (f s x))) (xs : List α) {s : σ}
    (h : Fresh (memory s)) : After (memory s) (memory (xs.foldl f s)) := by
  induction xs generalizing s with
  | nil => exact .refl h
  | cons x xs ih =>
      have hx := hf s x h
      exact hx.trans (ih hx.fresh)

/-- Where the assembler has the name of the symbol that a callback delivers. -/
def deliveredName (name : Addr) : Event → Ptr
  | .putSymbol _ _ _ => some name
  | _ => none

theorem eventMemory_after (E : Env) (p : Pass) {m : Memory} (h : Fresh m) {name : Addr}
    {ev : Event} (hname : HereOrNull m (deliveredName name ev)) :
    After m (eventMemory E p m name ev) := by
  cases ev with
  | fopen docs filename disk => exact fopenMemory_after E p h docs filename disk
  | report type r =>
      change After m (if r.region.range.start.line = 0 then m else reportMemory p.analyzer m r)
      split
      · exact .refl h
      · exact reportMemory_after h _ r
  | putRom addr value => exact .refl h
  | putSymbol addr sym annos =>
      change After m (putSymbolMemory E p m name addr sym annos)
      unfold putSymbolMemory
      split
      · exact .refl h
      · split
        · exact .refl h
        · have hput := putSymMemory_after h p.analyzer (hname name rfl) sym
          exact hput.trans (foldl_after id (fun m call hm => annotationMemory_after hm _ call) annos
            hput.fresh)
  | chessReport traceId type r =>
      change After m (if r.region.range.start.line = 0 then m
        else if type = .other then m else reportMemory p.analyzer m r)
      split
      · exact .refl h
      · split
        · exact .refl h
        · exact reportMemory_after h _ r
  | chessDeo traceId s value port =>
      change After m (if port = 0x0e ∧ value = 0x2b then stackMemory p.analyzer m s else m)
      split
      · exact stackMemory_after h _ s
      · exact .refl h

/-! ## The loops -/

/-- The memory without what the analyzer still has of the last run while it builds its queue. -/
def cleared (m : Memory) : Memory :=
  { m with contents := .empty, references := [], diagnostics := [] }

theorem memory_init_fresh : Fresh Memory.init where
  closed := fun p c hc => by cases hc
  srcs := fun p hp => absurd hp List.not_mem_nil
  syms := fun p hp => absurd hp List.not_mem_nil
  keys := fun f p hp => by cases hp
  contents := fun f p hp => by cases hp
  references := fun p hp => absurd hp List.not_mem_nil
  diagnostics := fun d hd => absurd hd List.not_mem_nil
  older := by decide
  latest := Heap.regions_empty _

/-- The generation that a run starts with has nothing in it. -/
theorem swapCtx_fresh {m : Memory} (h : Fresh (cleared m)) : Fresh (cleared m.swapCtx) where
  closed := by
    refine Heap.Regions.closed (Heap.Regions.mono (h.latest.release m.previous.generation) ?_)
    intro r hr
    exact Nat.ne_of_lt (Nat.lt_succ_of_le hr)
  srcs := fun p hp => absurd hp List.not_mem_nil
  syms := fun p hp => absurd hp List.not_mem_nil
  keys := fun f p hp => by cases hp
  contents := fun f p hp => by cases hp
  references := fun p hp => absurd hp List.not_mem_nil
  diagnostics := fun d hd => absurd hd List.not_mem_nil
  older := Nat.lt_succ_self _
  latest := (h.latest.release m.previous.generation).mono fun _ hr => Nat.le_succ_of_le hr

/-- The queue is built from `m` on. -/
def Queueing (m : Memory) (t : Tracked) : Prop := After m (cleared t.memory)

theorem trackQueueFile_after (E : Env) {m : Memory} {t : Tracked} (h : Queueing m t)
    (filename : Str) : Queueing m (trackQueueFile E t filename) :=
  After.trans h (addSource_after h.fresh filename)

theorem trackVisit_after (E : Env) (docs : Docs) {m : Memory} {t : Tracked} (h : Queueing m t)
    (node : SrcId) : Queueing m (trackVisit E docs t node).1 := by
  unfold trackVisit
  split
  · exact h
  · split
    · exact h
    · split
      · exact trackQueueFile_after E h _
      · exact h

theorem trackQueueDoc_after {E : Env} {docs : Docs} {m : Memory} {t t' : Tracked}
    {filename : Str} (h : Queueing m t) (hq : trackQueueDoc E docs t filename = some t') :
    Queueing m t' := by
  unfold trackQueueDoc at hq
  split at hq
  · exact Option.some.inj hq ▸ h
  · dsimp only at hq
    split at hq
    · refine climb_inv (P := Queueing m) (fun s s' v hs hl => ?_) h hq
      exact descend_inv (P := Queueing m) (fun s v hs => trackVisit_after E docs hs v) hs hl
    · exact Option.some.inj hq ▸ trackQueueFile_after E h filename

/-- After the queue is built, only the references of the last run are still there. -/
theorem trackBegin_fresh {E : Env} {docs : Docs} {t t' : Tracked} (h : Fresh (cleared t.memory))
    (hb : trackBegin E docs t = some t') :
    Fresh { t'.memory with references := [] } ∧
      t'.memory.current.generation = t.memory.current.generation + 1 := by
  obtain ⟨q, hq, rfl⟩ := Option.map_eq_some_iff.mp hb
  have hstart : Queueing (cleared t.memory.swapCtx) ⟨swapCtx t.analyzer, t.memory.swapCtx⟩ :=
    After.refl (swapCtx_fresh h)
  have hqueued : Queueing (cleared t.memory.swapCtx) q :=
    foldlM_inv (P := Queueing (cleared t.memory.swapCtx))
      (fun _ _ _ _ hs hd => trackQueueDoc_after hs hd) hstart hq
  exact ⟨hqueued.fresh, hqueued.generation⟩

theorem trackCarrySymbol_after (source : SrcId) (last : Nat) {t : Tracked} (h : Fresh t.memory)
    (id : SymId) : After t.memory (trackCarrySymbol source last t id).memory := by
  unfold trackCarrySymbol
  dsimp only
  split
  · exact .refl h
  · split
    · exact .refl h
    · exact copySymbol_after h _ source

theorem trackCarryFile_after {t : Tracked} (h : Fresh t.memory) (e : Str × File) :
    After t.memory (trackCarryFile t e).memory := by
  unfold trackCarryFile
  split
  · split
    · exact foldl_after Tracked.memory (fun t id ht => trackCarrySymbol_after _ _ ht id) _ h
    · exact .refl h
  · exact .refl h

theorem connectMemory_after {m : Memory} (h : Fresh m) (a : Analyzer) {name : Ptr}
    (hname : HereOrNull m name) (sym : AsmSym) : After m (connectMemory a m name sym) := by
  unfold connectMemory
  split
  · exact .refl h
  · have hpush := pushSym_after h .references
      (newSym_here hname (srcPtr_here h (a.current.sources.find? sym.region.filename.chars)))
    exact hpush.trans (addEdge_after hpush.fresh (symPtr_here hpush.fresh _)
      (symPtr_here hpush.fresh _))

theorem trackConnect_after {E : Env} {syms : List AsmSym} {names : List Addr} {t t' : Tracked}
    (h : Fresh t.memory) (hnames : ∀ p ∈ names, Here t.memory p)
    (hc : trackConnect E syms names t = some t') : After t.memory t'.memory := by
  induction syms generalizing names t with
  | nil => exact Option.some.inj hc ▸ .refl h
  | cons sym syms ih =>
      obtain ⟨a, -, hc⟩ := Option.bind_eq_some_iff.mp hc
      have hhead : HereOrNull t.memory names.head? :=
        fun p hp => hnames p (List.mem_of_mem_head? hp)
      have hconnect := connectMemory_after h t.analyzer hhead sym
      exact hconnect.trans (ih hconnect.fresh
        (fun p hp => hconnect.here p (hnames p (List.mem_of_mem_tail hp))) hc)

theorem trackLeave_after {E : Env} {t t' : Tracked} (h : Fresh t.memory)
    (hl : trackLeave E t = some t') : After t.memory t'.memory := by
  have hcarry := foldl_after Tracked.memory (fun t e ht => trackCarryFile_after ht e)
    t.analyzer.files.entries h
  exact hcarry.trans (trackConnect_after hcarry.fresh hcarry.fresh.references hl)

/-! ## The invariant -/

/-- In a pass the memory is fresh; outside, the references of the last pass are not looked at. -/
structure FreshOutside (s : TrackedMachine) : Prop where
  pass : inPass s.machine.phase → Fresh s.memory
  outside : Fresh { s.memory with references := [] }

/-- The assembler hands out memory of the run that it is called in. -/
def AsmMemory (s : TrackedMachine) : TrackedLabel → Prop
  | .step (.event ev) name => HereOrNull s.memory (deliveredName name ev)
  | _ => True

instance (s : TrackedMachine) : (l : TrackedLabel) → Decidable (AsmMemory s l)
  | .step (.event ev) name =>
    inferInstanceAs (Decidable (∀ q ∈ deliveredName name ev, Here s.memory q))
  | .asmAlloc | .step (.start _) _ | .step .skip _ | .step .enter _ | .step (.asmDone _) _
  | .step .chessDone _ | .step .leave _ | .step .finish _ => isTrue trivial

/-- How many runs of the analysis are started. -/
def runsOf (ls : List Label) : Nat :=
  ls.countP fun
    | .start _ => true
    | _ => false

theorem Fresh.forget {m : Memory} (h : Fresh m) : Fresh { m with references := [] } :=
  { h with references := fun _ hp => absurd hp List.not_mem_nil }

theorem FreshOutside.of_fresh {s : TrackedMachine} (h : Fresh s.memory) : FreshOutside s :=
  ⟨fun _ => h, h.forget⟩

/-- A step out of a pass, or within it, that leaves the memory as it is. -/
theorem FreshOutside.same {s : TrackedMachine} (h : FreshOutside s) {m : Machine}
    (hp : inPass m.phase → inPass s.machine.phase) : FreshOutside ⟨m, s.memory⟩ :=
  ⟨fun hm => h.pass (hp hm), h.outside⟩

theorem cleared_fresh {m : Memory} (h : Fresh { m with references := [] }) : Fresh (cleared m) :=
  { h with
    contents := fun f p hp => by cases hp
    diagnostics := fun d hd => absurd hd List.not_mem_nil }

theorem trackedMachineStep_fresh {E : Env} {s s' : TrackedMachine} {name : Addr} {l : Label}
    (h : FreshOutside s) (hl : AsmMemory s (.step l name))
    (hs : trackedMachineStep E s name l = some s') :
    FreshOutside s' ∧
      s'.memory.current.generation = s.memory.current.generation + runsOf [l] := by
  cases l with
  | start docs =>
      simp only [trackedMachineStep] at hs
      split at hs
      · obtain ⟨t, ht, rfl⟩ := Option.map_eq_some_iff.mp hs
        obtain ⟨hfresh, hgeneration⟩ := trackBegin_fresh (cleared_fresh h.outside) ht
        exact ⟨⟨fun hp => hp.elim, hfresh⟩, hgeneration⟩
      · cases hs
  | skip =>
      obtain ⟨m, hm, rfl⟩ := Option.map_eq_some_iff.mp hs
      cases step_cases hm with
      | skip _ _ _ => exact ⟨h.same fun hp => hp.elim, rfl⟩
  | enter =>
      obtain ⟨m, hm, rfl⟩ := Option.map_eq_some_iff.mp hs
      exact ⟨.of_fresh h.outside, rfl⟩
  | event ev =>
      simp only [trackedMachineStep] at hs
      split at hs
      · rename_i ctx hctx
        obtain ⟨m, hm, rfl⟩ := Option.map_eq_some_iff.mp hs
        have hafter := eventMemory_after E ⟨s.machine.analyzer, ctx⟩
          (h.pass (inPass_of_passCtx hctx)) hl
        exact ⟨.of_fresh hafter.fresh, hafter.generation⟩
      · cases hs
  | asmDone success =>
      obtain ⟨m, hm, rfl⟩ := Option.map_eq_some_iff.mp hs
      cases step_cases hm with
      | asmDone hp _ _ => exact ⟨h.same fun _ => hp ▸ trivial, rfl⟩
      | asmEnded hp _ => exact ⟨h.same fun _ => hp ▸ trivial, rfl⟩
  | chessDone =>
      obtain ⟨m, hm, rfl⟩ := Option.map_eq_some_iff.mp hs
      cases step_cases hm with
      | chessDone hp => exact ⟨h.same fun _ => hp ▸ trivial, rfl⟩
  | leave =>
      simp only [trackedMachineStep] at hs
      split at hs
      · rename_i i hp
        obtain ⟨t, ht, rfl⟩ := Option.map_eq_some_iff.mp hs
        have hafter := trackLeave_after (t := ⟨s.machine.analyzer, s.memory⟩)
          (h.pass (hp ▸ trivial)) ht
        exact ⟨.of_fresh hafter.fresh, hafter.generation⟩
      · cases hs
  | finish =>
      obtain ⟨m, hm, rfl⟩ := Option.map_eq_some_iff.mp hs
      cases step_cases hm with
      | finish _ _ => exact ⟨h.same fun hp => hp.elim, rfl⟩

theorem trackedStep_fresh {E : Env} {s s' : TrackedMachine} {l : TrackedLabel}
    (h : FreshOutside s) (hl : AsmMemory s l) (hs : trackedStep E s l = some s') :
    FreshOutside s' ∧
      s'.memory.current.generation =
        s.memory.current.generation + runsOf (machineLabels l) := by
  cases l with
  | asmAlloc =>
      simp only [trackedStep] at hs
      split at hs
      · rename_i hctx
        obtain rfl := Option.some.inj hs
        obtain ⟨ctx, hctx⟩ := Option.isSome_iff_exists.mp hctx
        obtain ⟨hafter, -⟩ := allocBytes_after (h.pass (inPass_of_passCtx hctx))
        exact ⟨.of_fresh hafter.fresh, hafter.generation⟩
      · cases hs
  | step l name => exact trackedMachineStep_fresh h hl hs

theorem trackedRun_fresh {E : Env} {s s' : TrackedMachine} {ls : List TrackedLabel}
    (h : FreshOutside s) (hasm : Meets (trackedStep E) AsmMemory s ls)
    (hs : run (trackedStep E) s ls = some s') :
    FreshOutside s' ∧
      s'.memory.current.generation =
        s.memory.current.generation + runsOf (ls.flatMap machineLabels) := by
  induction ls generalizing s with
  | nil =>
      obtain rfl := Option.some.inj hs
      exact ⟨h, rfl⟩
  | cons l ls ih =>
      obtain ⟨u, hu, hs⟩ := run_cons_some hs
      obtain ⟨hfresh, hfirst⟩ := trackedStep_fresh h hasm.head hu
      obtain ⟨hfresh', hrest⟩ := ih hfresh (hasm.tail hu) hs
      refine ⟨hfresh', ?_⟩
      have hcount : runsOf ((l :: ls).flatMap machineLabels) =
          runsOf (machineLabels l) + runsOf (ls.flatMap machineLabels) := by
        rw [List.flatMap_cons]
        exact List.countP_append
      omega

theorem FreshOutside.roots {s : TrackedMachine} (h : FreshOutside s) :
    ∀ p ∈ s.memory.roots, Here s.memory p := by
  intro p hp
  have hf := h.outside
  unfold Memory.roots at hp
  simp only [List.mem_append, List.mem_map, List.mem_flatMap] at hp
  obtain ((⟨⟨f, q⟩, hq, rfl⟩ | hp) | hp) | ⟨d, hd, hp⟩ := hp
  · exact hf.keys f q ((Table.mem_entries_iff _ _ _).mp hq)
  · exact hf.srcs p hp
  · exact hf.syms p hp
  · exact hf.diagnostics d hd p hp

/-! ## Main result -/

/-- The current generation is that of the latest run. What is reachable from the current context
    and from the diagnostics was allocated in it, and resetting the older context at the start
    of the next run frees nothing of that. -/
theorem generations_do_not_mix {E : Env} {ls : List TrackedLabel} {s : TrackedMachine}
    (hasm : Meets (trackedStep E) AsmMemory .init ls)
    (h : run (trackedStep E) .init ls = some s) :
    run (step E) Machine.init (ls.flatMap machineLabels) = some s.machine ∧
      Aligned s.machine.analyzer s.memory ∧
      s.memory.current.generation = 1 + runsOf (ls.flatMap machineLabels) ∧
      ∀ p, s.memory.heap.Reach Obj.fields s.memory.roots p →
        s.memory.heap.Within s.memory.current.generation p ∧
          (s.memory.heap.release s.memory.previous.generation).read p = s.memory.heap.read p := by
  have hinit : Aligned TrackedMachine.init.machine.analyzer TrackedMachine.init.memory := rfl
  obtain ⟨hrun, haligned⟩ := trackedRun_machine hinit h
  obtain ⟨hfresh, hgeneration⟩ := trackedRun_fresh (.of_fresh memory_init_fresh) hasm h
  refine ⟨hrun, haligned, hgeneration, fun p hp => ⟨?_, ?_⟩⟩
  · exact hp.within hfresh.outside.closed hfresh.roots
  · exact hp.kept hfresh.outside.closed hfresh.roots (Nat.ne_of_gt hfresh.outside.older)

/-- A run that finds a label and one that carries it over an error. The assembler allocates the
    name of the label, at address 3, before it delivers it. -/
def labelTwice : List TrackedLabel :=
  ((labelRun 2).take 3).map (.step · 3) ++ .asmAlloc ::
    ((labelRun 2).drop 3 ++ .start labelDocs :: brokenPass).map (.step · 3)

/-- The label and its name at address 3 are of the first run, the copy and its name of the
    second. -/
theorem generations_do_not_mix_label :
    ∃ s, run (trackedStep asciiEnv) .init labelTwice = some s ∧
      s.memory.heap.Within 2 3 ∧ s.memory.current.generation = 3 ∧
      s.memory.heap.Reach Obj.fields s.memory.roots 9 ∧ Here s.memory 9 := by
  have hasm : Meets (trackedStep asciiEnv) AsmMemory .init labelTwice := by decide
  have hout : (run (trackedStep asciiEnv) .init labelTwice).map (fun s =>
      (decide (s.memory.heap.Within 2 3), s.memory.current.generation,
        decide (10 ∈ s.memory.roots), (s.memory.heap.read 10).map fun c => c.content.fields)) =
      some (true, 3, true, some [9, 6]) := by decide
  obtain ⟨s, hs, hout⟩ := Option.map_eq_some_iff.mp hout
  simp only [Prod.mk.injEq, decide_eq_true_eq] at hout
  obtain ⟨hold, hgeneration, hroot, hfields⟩ := hout
  obtain ⟨c, hread, hc⟩ := Option.map_eq_some_iff.mp hfields
  have hreach : s.memory.heap.Reach Obj.fields s.memory.roots 9 :=
    .field (.root hroot) hread (by rw [hc]; exact List.mem_cons_self)
  obtain ⟨-, -, -, hall⟩ := generations_do_not_mix hasm hs
  exact ⟨s, hs, hold, hgeneration, hreach, (hall 9 hreach).1⟩

end BuxnLs.Analysis
