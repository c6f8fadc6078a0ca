/-
  Every queued file is assembled. The entries in front of the loop index are marked analyzed:
  an entry is skipped because it is marked, or its pass opens it first and marks it. With the
  queue of `Analysis/Schedule.lean` this covers the open documents (`open_documents_scheduled`).
-/
import BuxnLs.Analysis.Schedule

namespace BuxnLs.Analysis

open BuxnLs.Lib BuxnLs.Model Relation

/-! ## The assembler opens the entry first -/

/-- The first callback that opens a file opens `f`, before `buxn_asm` returns. -/
def opensFirst (f : Str) : List Label → Bool
  | .event (.fopen _ name _) :: _ => name.chars = f
  | .event _ :: ls => opensFirst f ls
  | _ => false

/-- The file whose pass a label begins. -/
def enteredFile (m : Machine) : Label → Option Str
  | .enter =>
    match m.phase with
    | .loop i =>
      (m.analyzer.analyzeQueue[i]?).bind fun node =>
        (m.analyzer.current.srcs[node]?).map SrcNode.filename
    | _ => none
  | _ => none

/-- In every pass of the run of `ls` from `m`, the assembler opens the entry first. -/
def entriesFirst (E : Env) : Machine → List Label → Bool
  | _, [] => true
  | m, l :: ls =>
    (enteredFile m l).all (opensFirst · ls) && (step E m l).all (entriesFirst E · ls)

/-- Files are opened while the documents are `docs`. -/
def DocsStay (docs : Docs) (ls : List Label) : Prop :=
  ∀ docs' name disk, .event (.fopen docs' name disk) ∈ ls → docs' = docs

/-! ## Marks stay -/

def Analyzed (c : AnalyzerCtx) (id : SrcId) : Prop :=
  ∃ src : SrcNode, c.srcs[id]? = some src ∧ src.analyzed = true

theorem CtxStep.analyzed {E : Env} {entry : SrcId} {c c' : AnalyzerCtx}
    (h : CtxStep E entry c c') {id : SrcId} (ha : Analyzed c id) : Analyzed c' id := by
  obtain ⟨src, hs, ha⟩ := ha
  have hmodify : ∀ (node : SrcId) (f : SrcNode → SrcNode), c'.srcs = c.srcs.modify node f →
      (∀ src : SrcNode, src.analyzed = true → (f src).analyzed = true) → Analyzed c' id := by
    intro node f hsrcs hf
    unfold Analyzed
    rw [hsrcs]
    exact modify_keeps_analyzed c node hf id src hs ha
  cases h with
  | addSource _ => exact ⟨src, getElem?_alloc_old hs, ha⟩
  | openSource _ => exact hmodify _ _ (openSource_srcs c _ _) fun _ _ => rfl
  | definition _ => exact hmodify _ _ rfl fun _ ha => ha
  | reference _ _ => exact hmodify _ _ rfl fun _ ha => ha
  | annotate _ _ _ => exact ⟨src, hs, ha⟩

theorem CtxSteps.analyzed {E : Env} {entry : SrcId} {c c' : AnalyzerCtx}
    (h : CtxSteps E entry c c') {id : SrcId} (ha : Analyzed c id) : Analyzed c' id :=
  CtxSteps.inv (P := fun x => Analyzed x id) (fun _ _ hx hs => hs.analyzed hx) ha h

theorem CtxSteps.filename {E : Env} {entry : SrcId} {c c' : AnalyzerCtx}
    (h : CtxSteps E entry c c') {id : SrcId} {f : Str}
    (hf : ∃ src : SrcNode, c.srcs[id]? = some src ∧ src.filename = f) :
    ∃ src : SrcNode, c'.srcs[id]? = some src ∧ src.filename = f := by
  refine CtxSteps.inv (P := fun x => ∃ src : SrcNode, x.srcs[id]? = some src ∧ src.filename = f)
    (fun x y hx hs => ?_) hf h
  obtain ⟨src, hsrc, hname⟩ := hx
  obtain ⟨src', hsrc', -, hname'⟩ := hs.extends.srcs id src hsrc
  exact ⟨src', hsrc', hname'.trans hname⟩

/-- Opening an open document marks its node. -/
theorem asmFopen_analyzed {E : Env} {p : Pass} {docs : Docs} {name : CStr} {disk : Option Str}
    (hw : CtxWF E p.analyzer.current) {id : SrcId}
    (hid : p.analyzer.current.sources.find? name.chars = some id)
    (hopen : (docs.find? name.chars).isSome) :
    Analyzed (asmFopen E p docs name disk).1.analyzer.current id := by
  obtain ⟨text, htext⟩ := Option.isSome_iff_exists.mp hopen
  obtain ⟨content, hcontent⟩ : ∃ content,
      findContent p.analyzer docs disk name.chars = some content := by
    unfold findContent
    rw [htext]
    split
    · exact ⟨_, rfl⟩
    · exact ⟨text, rfl⟩
  have hcapture := captureFile_current p.analyzer name.chars content
  obtain ⟨src, hs, -⟩ := hw.sources _ id hid
  unfold asmFopen
  rw [hcontent]
  dsimp only
  unfold sourceNode
  rw [hcapture, hid]
  dsimp only
  unfold Analyzed
  rw [linkEntry_current, openSource_srcs, hcapture]
  exact ⟨_, (getElem?_modify_iff _ _ _ _ _).mpr ⟨src, hs, rfl⟩, by rw [if_pos rfl]⟩

/-! ## The entries in front of the loop index -/

/-- Index of the loop over `analyze_queue`. -/
def position : Phase → Nat
  | .idle => 0
  | .loop i | .asm i _ | .chess i _ | .ended i => i

/-- The entry of a pass is marked or, while the assembler runs, still to be opened. -/
def EntryOK (a : Analyzer) (ls : List Label) : Phase → Prop
  | .asm i ctx => a.analyzeQueue[i]? = some ctx.entryNode ∧
      (Analyzed a.current ctx.entryNode ∨
        ∃ src : SrcNode, a.current.srcs[ctx.entryNode]? = some src ∧
          opensFirst src.filename ls = true)
  | .chess i _ | .ended i => ∀ node, a.analyzeQueue[i]? = some node → Analyzed a.current node
  | .idle | .loop _ => True

/-- What a run keeps, with the labels `ls` that it still has to take. -/
structure Assembling (E : Env) (docs : Docs) (m : Machine) (ls : List Label) : Prop where
  ok : MachineOK E m
  stays : DocsStay docs ls
  first : entriesFirst E m ls = true
  opened : ∀ id ∈ m.analyzer.analyzeQueue, ∃ src : SrcNode,
    m.analyzer.current.srcs[id]? = some src ∧ (docs.find? src.filename).isSome
  queued : ∀ f, (docs.find? f).isSome → ∃ id ∈ m.analyzer.analyzeQueue, ∃ src : SrcNode,
    m.analyzer.current.srcs[id]? = some src ∧ src.filename = f
  before : ∀ j < position m.phase, ∀ node, m.analyzer.analyzeQueue[j]? = some node →
    Analyzed m.analyzer.current node
  entry : EntryOK m.analyzer ls m.phase

theorem entriesFirst_cons {E : Env} {m m' : Machine} {l : Label} {ls : List Label}
    (h : entriesFirst E m (l :: ls) = true) (hs : step E m l = some m') :
    (∀ f, enteredFile m l = some f → opensFirst f ls = true) ∧ entriesFirst E m' ls = true := by
  unfold entriesFirst at h
  rw [Bool.and_eq_true, hs, Option.all_some] at h
  refine ⟨fun f hf => ?_, h.2⟩
  rw [hf, Option.all_some] at h
  exact h.1

theorem analyzed_of_isAnalyzed {E : Env} {m : Machine} (hm : MachineOK E m) {node : SrcId}
    (hn : node ∈ m.analyzer.analyzeQueue) (h : m.analyzer.isAnalyzed node = true) :
    Analyzed m.analyzer.current node := by
  have hs := List.getElem?_eq_getElem (hm.queue node hn)
  unfold Analyzer.isAnalyzed at h
  rw [hs] at h
  exact ⟨_, hs, h⟩

/-- A callback of a pass: only opening a file can be the first open. -/
theorem event_entryOK {E : Env} {docs : Docs} {m : Machine} {ls : List Label} {ev : Event}
    {ctx : AsmCtx} {p : Pass} (h : Assembling E docs m (.event ev :: ls))
    (hctx : m.phase.passCtx = some ctx) (hev : applyEvent E ⟨m.analyzer, ctx⟩ ev = some p) :
    EntryOK p.analyzer ls (m.phase.withCtx p.ctx) := by
  have hp := applyEvent_effect (h.ok.pass hctx) hev
  have hq : p.analyzer.analyzeQueue = m.analyzer.analyzeQueue := hp.effect.queue
  have hentry := h.entry
  cases hphase : m.phase with
  | idle => rw [hphase] at hctx; cases hctx
  | loop i => rw [hphase] at hctx; cases hctx
  | ended i => rw [hphase] at hctx; cases hctx
  | chess i c =>
      rw [hphase] at hentry
      exact fun node hn => hp.effect.steps.analyzed (hentry node (hq ▸ hn))
  | asm i c =>
      rw [hphase] at hentry hctx
      obtain rfl : c = ctx := Option.some.inj hctx
      obtain ⟨hat, hentry⟩ := hentry
      have hnode : p.ctx.entryNode = c.entryNode := hp.entry
      refine ⟨by rw [hq, hnode]; exact hat, ?_⟩
      rw [hnode]
      rcases hentry with hmarked | ⟨src, hs, hfirst⟩
      · exact Or.inl (hp.effect.steps.analyzed hmarked)
      · have hlater : opensFirst src.filename ls = true →
            ∃ src' : SrcNode, p.analyzer.current.srcs[c.entryNode]? = some src' ∧
              opensFirst src'.filename ls = true := by
          intro hl
          obtain ⟨src', hs', hname⟩ := hp.effect.steps.filename ⟨src, hs, rfl⟩
          exact ⟨src', hs', hname ▸ hl⟩
        cases ev with
        | fopen docs' name disk =>
            have hname : name.chars = src.filename := of_decide_eq_true hfirst
            obtain rfl := h.stays docs' name disk List.mem_cons_self
            obtain ⟨old, ho, hopen⟩ := h.opened _ (List.mem_of_getElem? hat)
            obtain rfl : src = old := Option.some.inj (hs.symm.trans ho)
            obtain rfl := Option.some.inj hev
            refine Or.inl (asmFopen_analyzed h.ok.current ?_ (hname ▸ hopen))
            rw [hname]
            exact (h.ok.current.named _ src hs).1
        | report _ _ => exact Or.inr (hlater hfirst)
        | putRom _ _ => exact Or.inr (hlater hfirst)
        | putSymbol _ _ _ => exact Or.inr (hlater hfirst)
        | chessReport _ _ _ => exact Or.inr (hlater hfirst)
        | chessDeo _ _ _ _ => exact Or.inr (hlater hfirst)

/-- The invariant after a step that changes the context like a pass. -/
theorem Assembling.of_steps {E : Env} {docs : Docs} {m m' : Machine} {l : Label}
    {ls : List Label} {entry : SrcId} (h : Assembling E docs m (l :: ls))
    (hs : step E m l = some m')
    (hsteps : CtxSteps E entry m.analyzer.current m'.analyzer.current)
    (hq : m'.analyzer.analyzeQueue = m.analyzer.analyzeQueue)
    (hbefore : ∀ j < position m'.phase, ∀ node, m.analyzer.analyzeQueue[j]? = some node →
      Analyzed m'.analyzer.current node)
    (hentry : EntryOK m'.analyzer ls m'.phase) : Assembling E docs m' ls where
  ok := step_ok h.ok hs
  stays := fun docs' name disk hm => h.stays docs' name disk (List.mem_cons_of_mem _ hm)
  first := (entriesFirst_cons h.first hs).2
  opened := by
    intro id hid
    obtain ⟨src, hsrc, hopen⟩ := h.opened id (hq ▸ hid)
    obtain ⟨src', hsrc', hname⟩ := hsteps.filename ⟨src, hsrc, rfl⟩
    exact ⟨src', hsrc', hname ▸ hopen⟩
  queued := by
    intro f hf
    obtain ⟨id, hid, hsrc⟩ := h.queued f hf
    exact ⟨id, hq ▸ hid, hsteps.filename hsrc⟩
  before := fun j hj node hn => hbefore j hj node (hq ▸ hn)
  entry := hentry

theorem Assembling.of_same {E : Env} {docs : Docs} {m m' : Machine} {l : Label}
    {ls : List Label} (h : Assembling E docs m (l :: ls)) (hs : step E m l = some m')
    (hc : m'.analyzer.current = m.analyzer.current)
    (hq : m'.analyzer.analyzeQueue = m.analyzer.analyzeQueue)
    (hbefore : ∀ j < position m'.phase, ∀ node, m.analyzer.analyzeQueue[j]? = some node →
      Analyzed m.analyzer.current node)
    (hentry : EntryOK m'.analyzer ls m'.phase) : Assembling E docs m' ls := by
  have hsteps : CtxSteps E 0 m.analyzer.current m'.analyzer.current := by
    rw [hc]
  exact h.of_steps hs hsteps hq (hc ▸ hbefore) hentry

/-- When the assembler returns, the entry has been opened. -/
theorem entry_of_asmDone {a : Analyzer} {i : Nat} {ctx : AsmCtx} {success : Bool}
    {ls : List Label} (h : EntryOK a (.asmDone success :: ls) (.asm i ctx)) (node : SrcId)
    (hn : a.analyzeQueue[i]? = some node) : Analyzed a.current node := by
  obtain ⟨hat, hentry⟩ := h
  obtain rfl : ctx.entryNode = node := Option.some.inj (hat.symm.trans hn)
  refine hentry.resolve_right fun hopen => ?_
  obtain ⟨src, -, hfirst⟩ := hopen
  cases hfirst

/-- One step within an analysis. -/
theorem step_assembling {E : Env} {docs : Docs} {m m' : Machine} {l : Label} {ls : List Label}
    (h : Assembling E docs m (l :: ls)) (hl : ∀ docs', l ≠ .start docs')
    (hs : step E m l = some m') : Assembling E docs m' ls := by
  have hbefore := h.before
  have hentry := h.entry
  cases step_cases hs with
  | start _ _ => exact absurd rfl (hl _)
  | @skip i node hphase hq ha =>
      rw [hphase] at hbefore
      refine h.of_same hs rfl rfl (fun j hj node' hn => ?_) trivial
      rcases Nat.lt_succ_iff_lt_or_eq.mp hj with hj | rfl
      · exact hbefore j hj node' hn
      · obtain rfl : node = node' := Option.some.inj (hq.symm.trans hn)
        exact analyzed_of_isAnalyzed h.ok (List.mem_of_getElem? hq) ha
  | @enter i node hphase hq _ =>
      rw [hphase] at hbefore
      have hsrc := List.getElem?_eq_getElem (h.ok.queue node (List.mem_of_getElem? hq))
      refine h.of_same hs rfl rfl hbefore ⟨hq, Or.inr ⟨_, hsrc, ?_⟩⟩
      refine (entriesFirst_cons h.first hs).1 _ ?_
      simp only [enteredFile, hphase, hq, Option.bind_some, hsrc, Option.map_some]
  | @event ctx ev p hctx hev =>
      have hp := applyEvent_effect (h.ok.pass hctx) hev
      refine h.of_steps hs hp.effect.steps hp.effect.queue (fun j hj node hn => ?_)
        (event_entryOK h hctx hev)
      refine hp.effect.steps.analyzed (hbefore j ?_ node hn)
      cases hphase : m.phase with
      | asm i c => rw [hphase] at hj; exact hj
      | chess i c => rw [hphase] at hj; exact hj
      | idle => rw [hphase] at hctx; cases hctx
      | loop i => rw [hphase] at hctx; cases hctx
      | ended i => rw [hphase] at hctx; cases hctx
  | @asmDone i ctx success hphase _ _ =>
      rw [hphase] at hbefore hentry
      exact h.of_same hs rfl rfl hbefore (entry_of_asmDone hentry)
  | @asmEnded i ctx success hphase _ =>
      rw [hphase] at hbefore hentry
      exact h.of_same hs rfl rfl hbefore (entry_of_asmDone hentry)
  | @chessDone i ctx hphase =>
      rw [hphase] at hbefore hentry
      exact h.of_same hs rfl rfl hbefore hentry
  | @leave i a hphase ha =>
      have he := leavePass_effect 0 h.ok.current (h.ok.listed (hphase ▸ trivial)) ha
      rw [hphase] at hbefore hentry
      refine h.of_steps hs he.steps he.queue (fun j hj node hn => ?_) trivial
      rcases Nat.lt_succ_iff_lt_or_eq.mp hj with hj | rfl
      · exact he.steps.analyzed (hbefore j hj node hn)
      · exact he.steps.analyzed (hentry node hn)
  | @finish i hphase _ =>
      exact h.of_same hs rfl rfl (fun j hj => absurd hj (Nat.not_lt_zero j)) trivial

theorem run_assembling {E : Env} {docs : Docs} {m m' : Machine} {ls rest : List Label}
    (h : Assembling E docs m (ls ++ rest)) (hl : ∀ docs', Label.start docs' ∉ ls)
    (hr : run (step E) m ls = some m') : Assembling E docs m' rest := by
  induction ls generalizing m with
  | nil =>
      obtain rfl := Option.some.inj hr
      exact h
  | cons l ls ih =>
      obtain ⟨u, hu, hr⟩ := run_cons_some hr
      have hstart : ∀ docs', l ≠ .start docs' := fun docs' he => hl docs' (he ▸ List.mem_cons_self)
      exact ih (step_assembling h hstart hu)
        (fun docs' hd => hl docs' (List.mem_cons_of_mem _ hd)) hr

/-- Only the end of the loop leads to `idle`. -/
theorem finish_of_idle {E : Env} {m m' : Machine} {l : Label} (h : step E m l = some m')
    (hidle : m'.phase = .idle) :
    ∃ i, m.phase = .loop i ∧ m.analyzer.analyzeQueue[i]? = none ∧
      m'.analyzer = analyzeFinish E m.analyzer := by
  cases step_cases h with
  | finish hphase hnone => exact ⟨_, hphase, hnone, rfl⟩
  | @event ctx ev p hctx _ =>
      have hp : (m.phase.withCtx p.ctx).passCtx = some p.ctx := inPass_withCtx hctx
      have hphase : m.phase.withCtx p.ctx = .idle := hidle
      rw [hphase] at hp
      cases hp
  | start _ _ => cases hidle
  | skip _ _ _ => cases hidle
  | enter _ _ _ => cases hidle
  | asmDone _ _ _ => cases hidle
  | asmEnded _ _ => cases hidle
  | chessDone _ => cases hidle
  | leave _ _ => cases hidle

/-- At the end of the run every open document has a node that is marked. -/
theorem idle_analyzed {E : Env} {docs : Docs} {m m' : Machine} {ls : List Label}
    (h : Assembling E docs m ls) (hm : m.phase ≠ .idle) (hl : ∀ docs', Label.start docs' ∉ ls)
    (hr : run (step E) m ls = some m') (hidle : m'.phase = .idle) (f : Str)
    (hf : (docs.find? f).isSome) :
    ∃ src : SrcNode, m'.analyzer.current.srcOf f = some src ∧ src.analyzed = true := by
  rcases List.eq_nil_or_concat' ls with rfl | ⟨ls, l, rfl⟩
  · obtain rfl := Option.some.inj hr
    exact absurd hidle hm
  · obtain ⟨u, hu, hlast⟩ := run_concat_some hr
    obtain ⟨i, hphase, hnone, hfinish⟩ := finish_of_idle hlast hidle
    have hend := run_assembling h (fun docs' hd => hl docs' (List.mem_append_left _ hd)) hu
    have hbefore := hend.before
    rw [hphase] at hbefore
    obtain ⟨id, hid, src, hsrc, rfl⟩ := hend.queued f hf
    obtain ⟨j, hj⟩ := List.mem_iff_getElem?.mp hid
    have hlen : j < u.analyzer.analyzeQueue.length := lt_length_of_getElem? hj
    have hi := List.getElem?_eq_none_iff.mp hnone
    obtain ⟨src', hsrc', han⟩ := hbefore j (Nat.lt_of_lt_of_le hlen hi) id hj
    obtain rfl : src = src' := Option.some.inj (hsrc.symm.trans hsrc')
    refine ⟨src, ?_, han⟩
    rw [hfinish]
    exact (srcOf_of_find? (hend.ok.current.named id src hsrc).1).trans hsrc

/-! ## Every open document -/

theorem assembling_start {E : Env} {docs : Docs} {m : Machine} {a : Analyzer} {ls : List Label}
    (hs : step E m (.start docs) = some ⟨a, .loop 0⟩) (hm : MachineOK E m)
    (hsched : Scheduled E docs m.analyzer.current a) (hstay : DocsStay docs ls)
    (hfirst : entriesFirst E ⟨a, .loop 0⟩ ls = true) : Assembling E docs ⟨a, .loop 0⟩ ls where
  ok := step_ok hm hs
  stays := hstay
  first := hfirst
  opened := by
    intro id hid
    have hsrc := List.getElem?_eq_getElem (hsched.queued.begun.queue id hid)
    refine ⟨_, hsrc, hsched.queued.opened _ ?_⟩
    exact List.mem_filterMap.mpr ⟨id, hid, by rw [hsrc, Option.map_some]⟩
  queued := by
    intro f hf
    obtain ⟨id, hid, hname⟩ := List.mem_filterMap.mp (hsched.all f hf)
    exact ⟨id, hid, Option.map_eq_some_iff.mp hname⟩
  before := fun j hj => absurd hj (Nat.not_lt_zero j)
  entry := trivial

/-- After the queue-building loop the queue is the open documents, each once and stored under its
    name. When the assembler opens every entry first and the documents do not change, they are
    all analyzed at the end of the run. -/
theorem open_documents_scheduled (E : Env) {m : Machine}
    (hm : Reachable (step E) Machine.init m) (hidle : m.phase = .idle) (docs : Docs) :
    ∃ a, step E m (.start docs) = some ⟨a, .loop 0⟩ ∧
      a.analyzeQueue.Nodup ∧ (queuedNames a).Perm docs.keys ∧
      (∀ id ∈ a.analyzeQueue, ∃ src : SrcNode, a.current.srcs[id]? = some src ∧
        a.current.sources.find? src.filename = some id) ∧
      ∀ ls m', (∀ docs', Label.start docs' ∉ ls) → DocsStay docs ls →
        entriesFirst E ⟨a, .loop 0⟩ ls = true → run (step E) ⟨a, .loop 0⟩ ls = some m' →
        m'.phase = .idle → ∀ f, (docs.find? f).isSome →
          ∃ src : SrcNode, m'.analyzer.current.srcOf f = some src ∧ src.analyzed = true := by
  have hwalk := reachable_walkable hm
  obtain ⟨a, ha⟩ := Option.isSome_iff_exists.mp
    (analyzeBegin_isSome E docs hwalk.graph.acyclic)
  have hs : step E m (.start docs) = some ⟨a, .loop 0⟩ := by
    simp only [step, hidle, ha, Option.map_some]
  have hsched := analyzeBegin_scheduled hwalk ha
  have hq := hsched.queued
  refine ⟨a, hs, ?_, hsched.perm, fun id hid => ?_, ?_⟩
  · rw [hq.queue]
    exact List.nodup_range
  · have hsrc := List.getElem?_eq_getElem (hq.begun.queue id hid)
    exact ⟨_, hsrc, (hq.begun.wf.named id _ hsrc).1⟩
  · intro ls m' hl hstay hfirst hr hend f hf
    have hstart := assembling_start hs (reachable_ok hm) hsched hstay hfirst
    exact idle_analyzed hstart (by simp) hl hr hend f hf

/-- The second run of the two includers: each of the three documents is an entry. -/
def openedRun : List Label :=
  openingPass openedDocs fileA [] ++ openingPass openedDocs fileC [] ++
    openingPass openedDocs fileB [fileC] ++ [.finish]

theorem open_documents_scheduled_includers :
    ∃ m a m', run (step asciiEnv) Machine.init includersRun = some m ∧
      step asciiEnv m (.start openedDocs) = some ⟨a, .loop 0⟩ ∧
      (queuedNames a).Perm openedDocs.keys ∧
      run (step asciiEnv) ⟨a, .loop 0⟩ openedRun = some m' ∧
      ∀ f, (openedDocs.find? f).isSome →
        ∃ src : SrcNode, m'.analyzer.current.srcOf f = some src ∧ src.analyzed = true := by
  have hout : ((run (step asciiEnv) Machine.init includersRun).bind fun m =>
      (step asciiEnv m (.start openedDocs)).bind fun b =>
        (run (step asciiEnv) b openedRun).map fun m' =>
          decide (m.phase = .idle) && entriesFirst asciiEnv b openedRun &&
            decide (m'.phase = .idle)) = some true := by decide
  obtain ⟨m, hm, hout⟩ := Option.bind_eq_some_iff.mp hout
  obtain ⟨b, hb, hout⟩ := Option.bind_eq_some_iff.mp hout
  obtain ⟨m', hm', hout⟩ := Option.map_eq_some_iff.mp hout
  simp only [Bool.and_eq_true, decide_eq_true_eq] at hout
  obtain ⟨⟨hidle, hfirst⟩, hend⟩ := hout
  have hstay : DocsStay openedDocs openedRun := by
    intro docs' name disk hmem
    simp only [openedRun, openingPass, List.map_cons, List.map_nil, List.cons_append,
      List.nil_append, List.mem_cons, List.not_mem_nil, or_false, false_or, Label.event.injEq,
      Event.fopen.injEq, reduceCtorEq] at hmem
    rcases hmem with ⟨h, -⟩ | ⟨h, -⟩ | ⟨h, -⟩ | ⟨h, -⟩ <;> exact h
  obtain ⟨a, ha, -, hperm, -, hall⟩ :=
    open_documents_scheduled asciiEnv ⟨_, hm⟩ hidle openedDocs
  obtain rfl : b = ⟨a, .loop 0⟩ := Option.some.inj (hb.symm.trans ha)
  exact ⟨m, a, m', hm, ha, hperm, hm',
    hall openedRun m' (by simp [openedRun, openingPass]) hstay hfirst hm' hend⟩

end BuxnLs.Analysis
