/-
  The invariant of `buxn_ls_analyze` at every stop. `Begun` describes the context that the
  queue-building loops leave, `leavePass_effect` what follows an entry, and `MachineOK` is kept
  by every step of the machine, so it holds in every reachable state.
-/
import BuxnLs.Analysis.Effect

namespace BuxnLs.Analysis

open BuxnLs.Lib BuxnLs.Model Relation

/-! ## After the queue is built -/

/-- A context that holds queued nodes and nothing else, in front of the previous one `prev`. -/
structure Begun (E : Env) (prev : AnalyzerCtx) (a : Analyzer) : Prop where
  wf : CtxWF E a.current
  fresh : ∀ (id : SrcId) (src : SrcNode), a.current.srcs[id]? = some src →
    src = freshSrc E src.filename
  srcGraph : a.current.srcGraph = .empty
  syms : a.current.syms = []
  symGraph : a.current.symGraph = .empty
  queue : ∀ id ∈ a.analyzeQueue, id < a.current.srcs.length
  previous : a.previous = prev

theorem swapCtx_begun (E : Env) (a : Analyzer) : Begun E a.current (swapCtx a) where
  wf := ctxWF_empty E
  fresh := fun id src h => by simp [swapCtx, AnalyzerCtx.empty] at h
  srcGraph := rfl
  syms := rfl
  symGraph := rfl
  queue := fun id h => by simp [swapCtx] at h
  previous := rfl

theorem doQueueFile_begun {E : Env} {prev : AnalyzerCtx} {a : Analyzer} (h : Begun E prev a)
    {filename : Str} (hf : a.current.sources.find? filename = none) :
    Begun E prev (doQueueFile E a filename) where
  wf := addSource_wf h.wf hf
  fresh := by
    intro id src hs
    rcases (getElem?_alloc_iff _ _ _ _).mp hs with hs | ⟨-, rfl⟩
    · exact h.fresh id src hs
    · rfl
  srcGraph := h.srcGraph
  syms := h.syms
  symGraph := h.symGraph
  queue := by
    intro id hid
    have hlen : (doQueueFile E a filename).current.srcs.length = a.current.srcs.length + 1 := by
      simp [doQueueFile, allocNode]
    rw [hlen]
    rcases List.mem_append.mp hid with hid | hid
    · exact Nat.lt_succ_of_lt (h.queue id hid)
    · exact List.mem_singleton.mp hid ▸ Nat.lt_succ_self _
  previous := h.previous

theorem visitQueueNode_begun {E : Env} {prev : AnalyzerCtx} {docs : Docs} {a : Analyzer}
    (h : Begun E prev a) (node : SrcId) : Begun E prev (visitQueueNode E docs a node).1 := by
  unfold visitQueueNode
  split
  · exact h
  · split
    · exact h
    · rename_i hnone
      split
      · exact doQueueFile_begun h (by simpa using hnone)
      · exact h

theorem queueDoc_begun {E : Env} {prev : AnalyzerCtx} {docs : Docs} {a a' : Analyzer}
    {filename : Str} (h : Begun E prev a) (hq : queueDoc E docs a filename = some a') :
    Begun E prev a' := by
  unfold queueDoc at hq
  split at hq
  · exact Option.some.inj hq ▸ h
  · rename_i hnone
    split at hq
    · refine climb_inv (P := Begun E prev) (fun s s' v hs hl => ?_) h hq
      exact descend_inv (P := Begun E prev) (fun s v hs => visitQueueNode_begun hs v) hs hl
    · exact Option.some.inj hq ▸ doQueueFile_begun h (by simpa using hnone)

/-- The state at the head of the main loop. -/
theorem analyzeBegin_begun {E : Env} {docs : Docs} {a a' : Analyzer}
    (h : analyzeBegin E docs a = some a') :
    Begun E a.current a' ∧ a'.lines = [] ∧ a'.files = .empty ∧ a'.diagnostics = [] := by
  obtain ⟨b, hb, rfl⟩ := Option.map_eq_some_iff.mp h
  have hbegun : Begun E a.current b :=
    foldlM_inv (fun _ _ _ _ hs hq => queueDoc_begun hs hq) (swapCtx_begun E a) hb
  exact ⟨⟨hbegun.wf, hbegun.fresh, hbegun.srcGraph, hbegun.syms, hbegun.symGraph, hbegun.queue,
    hbegun.previous⟩, rfl, rfl, rfl⟩

/-! ## After the assembler -/

/-- What carrying symbols leaves alone: all but the symbol nodes and the lists they are in. -/
structure Carries (a a' : Analyzer) : Prop where
  previous : a'.previous = a.previous
  queue : a'.analyzeQueue = a.analyzeQueue
  files : a'.files = a.files
  diagnostics : a'.diagnostics = a.diagnostics
  macroDefs : a'.macroDefs = a.macroDefs
  labelDefs : a'.labelDefs = a.labelDefs
  references : a'.references = a.references
  sources : a'.current.sources = a.current.sources
  srcGraph : a'.current.srcGraph = a.current.srcGraph
  symGraph : a'.current.symGraph = a.current.symGraph

theorem Carries.refl (a : Analyzer) : Carries a a :=
  ⟨rfl, rfl, rfl, rfl, rfl, rfl, rfl, rfl, rfl, rfl⟩

theorem Carries.trans {a b c : Analyzer} (h : Carries a b) (h' : Carries b c) : Carries a c where
  previous := h'.previous.trans h.previous
  queue := h'.queue.trans h.queue
  files := h'.files.trans h.files
  diagnostics := h'.diagnostics.trans h.diagnostics
  macroDefs := h'.macroDefs.trans h.macroDefs
  labelDefs := h'.labelDefs.trans h.labelDefs
  references := h'.references.trans h.references
  sources := h'.sources.trans h.sources
  srcGraph := h'.srcGraph.trans h.srcGraph
  symGraph := h'.symGraph.trans h.symGraph

theorem foldl_carries {α : Type} {f : Analyzer → α → Analyzer} (hf : ∀ a x, Carries a (f a x))
    (xs : List α) (a : Analyzer) : Carries a (xs.foldl f a) := by
  induction xs generalizing a with
  | nil => exact Carries.refl a
  | cons x xs ih => exact (hf a x).trans (ih (f a x))

theorem carrySymbol_carries (source : SrcId) (last : Nat) (a : Analyzer) (id : SymId) :
    Carries a (carrySymbol source last a id) := by
  unfold carrySymbol
  split
  · exact Carries.refl a
  · split
    · exact Carries.refl a
    · exact ⟨rfl, rfl, rfl, rfl, rfl, rfl, rfl, rfl, rfl, rfl⟩

theorem carryFile_carries (a : Analyzer) (filename : Str) (file : File) :
    Carries a (carryFile a filename file) := by
  unfold carryFile
  split
  · split
    · exact foldl_carries (carrySymbol_carries _ _) _ a
    · exact Carries.refl a
  · exact Carries.refl a

theorem carryForward_carries (a : Analyzer) : Carries a (carryForward a) :=
  foldl_carries (fun a (e : Str × File) => carryFile_carries a e.1 e.2) _ a

theorem carrySymbol_effect {E : Env} (entry : SrcId) {source : SrcId} (last : Nat) {a : Analyzer}
    {filename : Str} (hs : a.current.sources.find? filename = some source) (id : SymId) :
    Effect E entry a (carrySymbol source last a id) := by
  unfold carrySymbol
  split
  · exact Effect.refl _ _ _
  · split
    · exact Effect.refl _ _ _
    · exact .of_steps (.single (.definition hs)) rfl rfl rfl rfl

theorem carrySymbols_effect {E : Env} (entry : SrcId) {source : SrcId} {last : Nat}
    {filename : Str} (ids : List SymId) {a : Analyzer}
    (hs : a.current.sources.find? filename = some source) :
    Effect E entry a (ids.foldl (carrySymbol source last) a) := by
  induction ids generalizing a with
  | nil => exact Effect.refl _ _ _
  | cons id ids ih =>
      have hsame := (carrySymbol_carries source last a id).sources
      exact (carrySymbol_effect entry last hs id).trans (ih (hsame ▸ hs))

theorem carryFile_effect (E : Env) (entry : SrcId) (a : Analyzer) (filename : Str) (file : File) :
    Effect E entry a (carryFile a filename file) := by
  unfold carryFile
  split
  · split
    · rename_i hcur
      exact carrySymbols_effect entry _ hcur
    · exact Effect.refl _ _ _
  · exact Effect.refl _ _ _

theorem carryForward_effect (E : Env) (entry : SrcId) (a : Analyzer) :
    Effect E entry a (carryForward a) :=
  foldl_effect (fun a (e : Str × File) => carryFile_effect E entry a e.1 e.2) _ a

theorem resolveReference_defined {a : Analyzer} (h : DefsListed a) {sym : AsmSym} {d : SymId}
    (hr : resolveReference a sym = some d) : Defined a.current d := by
  unfold resolveReference at hr
  split at hr
  · split at hr
    · cases hr
    · exact h.macros d (List.mem_of_getElem? hr)
  · exact h.labels _ d hr
  · cases hr

/-- The cases of `connectReference`. -/
theorem connectReference_cases {E : Env} {a a' : Analyzer} {sym : AsmSym}
    (h : connectReference E a sym = some a') :
    (resolveReference a sym = none ∧ a' = a) ∨
    (∃ d b node, resolveReference a sym = some d ∧ makeSymNode E a sym = some (b, node) ∧
      a' = { b with current := linkReference b.current node d }) := by
  unfold connectReference at h
  split at h
  · rename_i hr
    exact Or.inl ⟨hr, (Option.some.inj h).symm⟩
  · rename_i d hr
    obtain ⟨⟨b, node⟩, hm, rfl⟩ := Option.map_eq_some_iff.mp h
    exact Or.inr ⟨d, b, node, hr, hm, rfl⟩

theorem connectReference_effect {E : Env} (entry : SrcId) {a a' : Analyzer} {sym : AsmSym}
    (hd : DefsListed a) (h : connectReference E a sym = some a') : Effect E entry a a' := by
  obtain ⟨-, rfl⟩ | ⟨d, b, node, hr, hm, rfl⟩ := connectReference_cases h
  · exact Effect.refl _ _ _
  · obtain ⟨hl, hsrc, -⟩ := makeSymNode_spec hm
    have hlt : d < b.current.syms.length := hl.current ▸ (resolveReference_defined hd hr).lt
    exact (hl.effect).trans
      (.of_steps (.single (.reference (hl.current ▸ hsrc) hlt)) rfl rfl rfl rfl)

theorem connectReferences_effect {E : Env} (entry : SrcId) {a a' : Analyzer}
    {syms : List AsmSym} (hw : CtxWF E a.current) (hd : DefsListed a)
    (h : syms.foldlM (connectReference E) a = some a') : Effect E entry a a' := by
  refine foldlM_inv (P := fun b => Effect E entry a b) (fun b b' sym _ hb hs => ?_)
    (Effect.refl _ _ _) h
  exact hb.trans (connectReference_effect entry (hb.listed hw hd) hs)

theorem leavePass_effect {E : Env} (entry : SrcId) {a a' : Analyzer} (hw : CtxWF E a.current)
    (hd : DefsListed a) (h : leavePass E a = some a') : Effect E entry a a' := by
  have hc := carryForward_effect E entry a
  exact hc.trans (connectReferences_effect entry (hc.steps.wf hw) (hc.listed hw hd) h)

/-! ## The invariant -/

/-- The phases of a pass, from `buxn_asm` to the connection of its references. -/
def inPass : Phase → Prop
  | .asm _ _ | .chess _ _ | .ended _ => True
  | _ => False

theorem inPass_of_passCtx {p : Phase} {ctx : AsmCtx} (h : p.passCtx = some ctx) : inPass p := by
  cases p with
  | idle => cases h
  | loop i => cases h
  | asm i c => trivial
  | chess i c => trivial
  | ended i => cases h

structure MachineOK (E : Env) (m : Machine) : Prop where
  current : CtxWF E m.analyzer.current
  previous : CtxWF E m.analyzer.previous
  queue : ∀ id ∈ m.analyzer.analyzeQueue, id < m.analyzer.current.srcs.length
  listed : inPass m.phase → DefsListed m.analyzer
  recent : ∀ ctx, m.phase.passCtx = some ctx → ∀ id, ctx.currentSymNode = some id →
    Defined m.analyzer.current id

theorem machineOK_init (E : Env) : MachineOK E Machine.init where
  current := ctxWF_empty E
  previous := ctxWF_empty E
  queue := fun id h => by simp [Machine.init, Analyzer.init] at h
  listed := fun h => h.elim
  recent := fun ctx h => by cases h

theorem MachineOK.pass {E : Env} {m : Machine} {ctx : AsmCtx} (hm : MachineOK E m)
    (h : m.phase.passCtx = some ctx) : PassOK E ⟨m.analyzer, ctx⟩ :=
  ⟨hm.current, hm.listed (inPass_of_passCtx h), hm.recent ctx h⟩

theorem srcs_length_le_of_step {E : Env} {entry : SrcId} {c c' : AnalyzerCtx}
    (h : CtxStep E entry c c') : c.srcs.length ≤ c'.srcs.length := by
  cases h with
  | addSource _ => simp [addSource]
  | openSource _ => unfold openSource; split <;> simp [markAnalyzed]
  | definition _ => simp [linkDefinition]
  | reference _ _ => simp [linkReference]
  | annotate _ _ _ => exact Nat.le_refl _

theorem CtxSteps.srcs_length_le {E : Env} {entry : SrcId} {c c' : AnalyzerCtx}
    (h : CtxSteps E entry c c') : c.srcs.length ≤ c'.srcs.length :=
  CtxSteps.inv (P := fun x => c.srcs.length ≤ x.srcs.length)
    (fun _ _ hle hs => hle.trans (srcs_length_le_of_step hs)) (Nat.le_refl _) h

theorem Effect.queue_lt {E : Env} {entry : SrcId} {a a' : Analyzer} (h : Effect E entry a a')
    (hq : ∀ id ∈ a.analyzeQueue, id < a.current.srcs.length) :
    ∀ id ∈ a'.analyzeQueue, id < a'.current.srcs.length :=
  fun id hid => Nat.lt_of_lt_of_le (hq id (h.queue ▸ hid)) h.steps.srcs_length_le

theorem inPass_withCtx {p : Phase} {c c' : AsmCtx} (h : p.passCtx = some c) :
    (p.withCtx c').passCtx = some c' := by
  cases p <;> first | rfl | cases h

theorem step_ok {E : Env} {m m' : Machine} {l : Label} (hm : MachineOK E m)
    (h : step E m l = some m') : MachineOK E m' := by
  cases step_cases h with
  | start _ ha =>
      obtain ⟨hb, -⟩ := analyzeBegin_begun ha
      exact ⟨hb.wf, by rw [hb.previous]; exact hm.current, hb.queue, fun h => h.elim,
        fun ctx h => by cases h⟩
  | skip _ _ _ => exact ⟨hm.current, hm.previous, hm.queue, fun h => h.elim, fun _ h => by cases h⟩
  | enter _ _ _ =>
      refine ⟨hm.current, hm.previous, hm.queue, fun _ => ⟨fun id hid => ?_, fun k id hid => ?_⟩,
        fun ctx hctx id hid => ?_⟩
      · simp [startPass] at hid
      · simp [startPass] at hid
      · cases hctx
        cases hid
  | event hctx hev =>
      have hp := applyEvent_effect (hm.pass hctx) hev
      refine ⟨hp.ok.wf, ?_, hp.effect.queue_lt hm.queue, fun _ => hp.ok.listed,
        fun ctx hc id hid => ?_⟩
      · exact (congrArg (CtxWF E) hp.effect.previous).mpr hm.previous
      · rw [inPass_withCtx hctx] at hc
        cases hc
        exact hp.ok.recent id hid
  | asmDone hp _ _ =>
      exact ⟨hm.current, hm.previous, hm.queue, fun _ => hm.listed (hp ▸ trivial),
        fun ctx h => by cases h; exact hm.recent _ (hp ▸ rfl)⟩
  | asmEnded hp _ =>
      exact ⟨hm.current, hm.previous, hm.queue, fun _ => hm.listed (hp ▸ trivial),
        fun ctx h => by cases h⟩
  | chessDone hp =>
      exact ⟨hm.current, hm.previous, hm.queue, fun _ => hm.listed (hp ▸ trivial),
        fun ctx h => by cases h⟩
  | leave hp ha =>
      have he := leavePass_effect 0 hm.current (hm.listed (hp ▸ trivial)) ha
      exact ⟨he.steps.wf hm.current, (congrArg (CtxWF E) he.previous).mpr hm.previous,
        he.queue_lt hm.queue, fun h => h.elim, fun ctx h => by cases h⟩
  | finish _ _ => exact ⟨hm.current, hm.previous, hm.queue, fun h => h.elim, fun _ h => by cases h⟩

/-- Within an analysis the previous context and the queue stay. -/
theorem step_frame {E : Env} {m m' : Machine} {l : Label} (hm : MachineOK E m)
    (h : step E m l = some m') (hl : ∀ docs, l ≠ .start docs) :
    m'.analyzer.previous = m.analyzer.previous ∧
      m'.analyzer.analyzeQueue = m.analyzer.analyzeQueue := by
  cases step_cases h with
  | start _ _ => exact absurd rfl (hl _)
  | skip _ _ _ => exact ⟨rfl, rfl⟩
  | enter _ _ _ => exact ⟨rfl, rfl⟩
  | event hctx hev =>
      have hp := applyEvent_effect (hm.pass hctx) hev
      exact ⟨hp.effect.previous, hp.effect.queue⟩
  | asmDone _ _ _ => exact ⟨rfl, rfl⟩
  | asmEnded _ _ => exact ⟨rfl, rfl⟩
  | chessDone _ => exact ⟨rfl, rfl⟩
  | leave hp ha =>
      have he := leavePass_effect 0 hm.current (hm.listed (hp ▸ trivial)) ha
      exact ⟨he.previous, he.queue⟩
  | finish _ _ => exact ⟨rfl, rfl⟩

/-- The invariant holds in every reachable state. -/
theorem reachable_ok {E : Env} {m : Machine} (h : Reachable (step E) Machine.init m) :
    MachineOK E m :=
  h.inv (machineOK_init E) fun _ _ _ hm hs => step_ok hm hs

end BuxnLs.Analysis
