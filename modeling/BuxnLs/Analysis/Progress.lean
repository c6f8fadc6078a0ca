/-
  An analysis gets to its end. The assertion of `buxn_ls_make_sym_node` is the only thing in
  `buxn_ls_analyze` that can fail after a callback has returned, when the references of a pass are
  connected; sources are never taken away, so it holds then when it held for each reference on
  its arrival. The rest of the loop is bounded by its queue (`analysis_ends`).

  The number of a macro is used there as an index without a check. It is in range as long as the
  assembler refers to macros that it has delivered (`macro_references_resolve`).
-/
import BuxnLs.Analysis.Acyclic
import BuxnLs.Analysis.Invariant
import BuxnLs.Analysis.Navigation

namespace BuxnLs.Analysis

open BuxnLs.Lib BuxnLs.Model

variable {E : Env}

/-! ## The pending references -/

/-- A symbol that is kept until the definitions are known. -/
def IsReference (sym : AsmSym) : Prop := sym.type = .macroRef ∨ sym.type = .labelRef

/-- `macro_defs` grows at its end, and the references that are added satisfy `P`. -/
structure Adds (P : AsmSym → Prop) (a b : Analyzer) : Prop where
  macros : a.macroDefs <+: b.macroDefs
  references : ∀ r ∈ b.references, r ∈ a.references ∨ P r

section Adds

variable {P : AsmSym → Prop}

theorem Adds.of_same {a b : Analyzer} (hm : b.macroDefs = a.macroDefs)
    (hr : b.references = a.references) : Adds P a b :=
  ⟨hm ▸ List.prefix_rfl, fun _ h => Or.inl (hr ▸ h)⟩

theorem Adds.trans {a b c : Analyzer} (h : Adds P a b) (h' : Adds P b c) : Adds P a c :=
  ⟨h.macros.trans h'.macros, fun r hr => (h'.references r hr).elim (h.references r) Or.inr⟩

theorem LinesOnly.adds {a b : Analyzer} (h : LinesOnly a b) : Adds P a b :=
  .of_same h.macroDefs h.references

theorem reports_adds (E : Env) : ReportKeeps E (Adds P) where
  refl := fun _ => .of_same rfl rfl
  trans := Adds.trans
  mark := fun a filename => by unfold markError; split <;> exact .of_same rfl rfl
  convert := fun a region => (convertRegion_linesOnly E a region).adds
  push := fun _ _ => .of_same rfl rfl

theorem putDefinition_adds {p p' : Pass} {addr : UInt16} {sym : AsmSym}
    (h : putDefinition E p addr sym = some p') : Adds P p.analyzer p'.analyzer := by
  have hnote : ∀ file byte, Adds P p.analyzer
      (noteSymbolByte p.analyzer sym.region.filename.chars file byte) := by
    intro file byte
    unfold noteSymbolByte
    split <;> exact .of_same rfl rfl
  obtain ⟨file, -, -, rfl⟩ | ⟨-, file, a, node, hput⟩ := putDefinition_cases h
  · exact hnote file _
  · have ha : Adds P p.analyzer a := (hnote file _).trans hput.lines.adds
    obtain ⟨mds, lds, hp, hmds⟩ := hput.analyzer
    rw [hp]
    obtain ⟨rfl, -⟩ | ⟨rfl, -⟩ := hmds
    · exact ⟨ha.macros, ha.references⟩
    · exact ⟨ha.macros.trans (List.prefix_append _ _), ha.references⟩

theorem handleAnnotation_adds {p p' : Pass} {call : AnnoCall}
    (h : handleAnnotation p call = some p') : Adds P p.analyzer p'.analyzer := by
  obtain ⟨-, file, sem, -, ha⟩ | ⟨id, f, enumScope, -, -, -, ha⟩ := handleAnnotation_cases h
  · exact ha ▸ .of_same rfl rfl
  · exact ha ▸ .of_same rfl rfl

end Adds

theorem putSymNode_adds {p p' : Pass} {addr : UInt16} {sym : AsmSym}
    (h : putSymNode E p addr sym = some p') :
    Adds (fun r => r = sym ∧ IsReference sym) p.analyzer p'.analyzer := by
  have hpush (ht : IsReference sym) :
      Adds (fun r => r = sym ∧ IsReference sym) p.analyzer
        { p.analyzer with references := p.analyzer.references ++ [sym] } :=
    ⟨List.prefix_rfl, fun r hr =>
      (List.mem_append.mp hr).imp id fun hr => ⟨List.mem_singleton.mp hr, ht⟩⟩
  unfold putSymNode at h
  split at h
  · exact putDefinition_adds h
  · exact putDefinition_adds h
  · next ht => exact Option.some.inj h ▸ hpush (Or.inl ht)
  · next ht => exact Option.some.inj h ▸ hpush (Or.inr ht)
  · exact Option.some.inj h ▸ .of_same rfl rfl

/-- A callback adds at most the reference that it delivers. -/
theorem applyEvent_adds {p p' : Pass} {ev : Event} (h : applyEvent E p ev = some p') :
    Adds (fun r => IsReference r ∧ ∃ addr annos, ev = .putSymbol addr r annos)
      p.analyzer p'.analyzer := by
  cases ev with
  | fopen docs filename disk =>
      obtain rfl := Option.some.inj h
      rcases asmFopen_moves E p docs filename disk with ⟨-, ha⟩ | ⟨content, c, -, ha⟩
      · exact ha ▸ .of_same rfl rfl
      · rw [ha, captureFile_eq]
        exact .of_same rfl rfl
  | report type r =>
      obtain rfl := Option.some.inj h
      exact (reports_adds E).asmReport _ type r
  | putRom addr value =>
      obtain rfl := Option.some.inj h
      exact .of_same rfl rfl
  | putSymbol addr sym annos =>
      obtain ⟨-, rfl⟩ | ⟨-, q, hq, hannos⟩ := asmPutSymbol_cases h
      · exact .of_same rfl rfl
      · have hput : Adds (fun r => r = sym ∧ IsReference sym) p.analyzer q.analyzer :=
          putSymNode_adds hq
        have hannotated : Adds (fun r => r = sym ∧ IsReference sym) p.analyzer p'.analyzer := by
          refine foldlM_inv (P := fun s : Pass => Adds _ p.analyzer s.analyzer)
            (fun _ _ _ _ hs hstep => hs.trans (handleAnnotation_adds hstep)) ?_ hannos
          exact hput
        refine ⟨hannotated.macros, fun r hr => (hannotated.references r hr).imp id ?_⟩
        rintro ⟨rfl, ht⟩
        exact ⟨ht, addr, annos, rfl⟩
  | chessReport traceId type r =>
      obtain rfl := Option.some.inj h
      exact (reports_adds E).chessReport _ traceId type r
  | chessDeo traceId s value port =>
      obtain rfl := Option.some.inj h
      exact (reports_adds E).chessDeo _ traceId s value port

/-- The file of a symbol has a node. -/
def HasSource (a : Analyzer) (sym : AsmSym) : Prop :=
  (a.current.sources.find? sym.region.filename.chars).isSome = true

instance (a : Analyzer) (sym : AsmSym) : Decidable (HasSource a sym) :=
  inferInstanceAs (Decidable (_ = _))

theorem CtxSteps.hasSource {entry : SrcId} {a b : Analyzer}
    (h : CtxSteps E entry a.current b.current) {sym : AsmSym} (hs : HasSource a sym) :
    HasSource b sym := by
  obtain ⟨id, hid⟩ := Option.isSome_iff_exists.mp hs
  exact Option.isSome_iff_exists.mpr ⟨id, h.find?_sources hid⟩

/-- The assembler reports a reference from a file that it has opened. -/
def RefersToOpened (m : Machine) : Label → Prop
  | .event (.putSymbol _ sym _) => IsReference sym → HasSource m.analyzer sym
  | _ => True

instance (m : Machine) (l : Label) : Decidable (RefersToOpened m l) :=
  match l with
  | .event (.putSymbol _ sym _) =>
    inferInstanceAs (Decidable (sym.type = .macroRef ∨ sym.type = .labelRef → _))
  | .event (.fopen _ _ _) | .event (.report _ _) | .event (.putRom _ _)
  | .event (.chessReport _ _ _) | .event (.chessDeo _ _ _ _) | .start _ | .skip | .enter
  | .asmDone _ | .chessDone | .leave | .finish => isTrue trivial

/-- The references of the pass in progress can be connected. -/
structure Connectable (E : Env) (m : Machine) : Prop where
  ok : MachineOK E m
  sources : inPass m.phase → ∀ sym ∈ m.analyzer.references, HasSource m.analyzer sym

theorem connectable_init (E : Env) : Connectable E Machine.init :=
  ⟨machineOK_init E, fun h => h.elim⟩

theorem step_connectable {m m' : Machine} {l : Label} (hm : Connectable E m)
    (hl : RefersToOpened m l) (h : step E m l = some m') : Connectable E m' := by
  refine ⟨step_ok hm.ok h, ?_⟩
  cases step_cases h with
  | start _ _ => exact fun hin => hin.elim
  | skip _ _ _ => exact fun hin => hin.elim
  | enter _ _ _ => exact fun _ sym hsym => absurd hsym List.not_mem_nil
  | @event ctx ev p hctx hev =>
      intro _ sym hsym
      have hsteps := (applyEvent_effect (hm.ok.pass hctx) hev).effect.steps
      rcases (applyEvent_adds hev).references sym hsym with hold | ⟨href, addr, annos, rfl⟩
      · exact hsteps.hasSource (hm.sources (inPass_of_passCtx hctx) sym hold)
      · exact hsteps.hasSource (hl href)
  | asmDone hp _ _ => exact fun _ => hm.sources (hp ▸ trivial)
  | asmEnded hp _ => exact fun _ => hm.sources (hp ▸ trivial)
  | chessDone hp => exact fun _ => hm.sources (hp ▸ trivial)
  | leave _ _ => exact fun hin => hin.elim
  | finish _ _ => exact fun hin => hin.elim

/-! ## The end of a pass -/

theorem connectReference_isSome {a : Analyzer} {sym : AsmSym} (h : HasSource a sym) :
    (connectReference E a sym).isSome = true := by
  obtain ⟨id, hid⟩ := Option.isSome_iff_exists.mp h
  unfold connectReference
  split
  · rfl
  · unfold makeSymNode
    rw [hid]
    rfl

theorem connectReferences_isSome {a : Analyzer} (hw : CtxWF E a.current) (hd : DefsListed a)
    {syms : List AsmSym} (h : ∀ sym ∈ syms, HasSource a sym) :
    ∃ a', syms.foldlM (connectReference E) a = some a' := by
  induction syms generalizing a with
  | nil => exact ⟨a, rfl⟩
  | cons sym syms ih =>
      obtain ⟨b, hb⟩ := Option.isSome_iff_exists.mp
        (connectReference_isSome (E := E) (h sym List.mem_cons_self))
      have he := connectReference_effect 0 hd hb
      obtain ⟨a', ha'⟩ := ih (he.steps.wf hw) (he.listed hw hd) fun s hs =>
        he.steps.hasSource (h s (List.mem_cons_of_mem _ hs))
      exact ⟨a', by rw [List.foldlM_cons, hb]; exact ha'⟩

theorem leave_isSome {m : Machine} {i : Nat} (hm : Connectable E m) (hp : m.phase = .ended i) :
    ∃ m', step E m .leave = some m' ∧ m'.phase = .loop (i + 1) := by
  have hin : inPass m.phase := hp ▸ trivial
  have hc := carryForward_effect E 0 m.analyzer
  have hsame := (carryForward_carries m.analyzer).references
  obtain ⟨a', ha'⟩ := connectReferences_isSome (hc.steps.wf hm.ok.current)
    (hc.listed hm.ok.current (hm.ok.listed hin)) fun sym hsym =>
      hc.steps.hasSource (hm.sources hin sym (hsame ▸ hsym))
  refine ⟨⟨a', .loop (i + 1)⟩, ?_, rfl⟩
  simp only [step, hp]
  rw [show leavePass E m.analyzer = some a' from ha']
  rfl

/-! ## The loop -/

/-- A step of `buxn_ls_analyze` itself, within an analysis. -/
def isControl : Label → Bool
  | .event _ | .start _ => false
  | _ => true

/-- A bound on the steps that are left: four for a document that is still to be analyzed. -/
def stepsToEnd (m : Machine) : Nat :=
  let left := fun i => 4 * (m.analyzer.analyzeQueue.length - i) + 1
  match m.phase with
  | .idle => 0
  | .loop i => left i
  | .asm i _ => left (i + 1) + 3
  | .chess i _ => left (i + 1) + 2
  | .ended i => left (i + 1) + 1

theorem stepsToEnd_le (m : Machine) : stepsToEnd m ≤ 4 * m.analyzer.analyzeQueue.length + 4 := by
  unfold stepsToEnd
  cases m.phase with
  | idle => exact Nat.zero_le _
  | loop i => dsimp only; omega
  | asm i ctx => dsimp only; omega
  | chess i ctx => dsimp only; omega
  | ended i => dsimp only; omega

/-- A step gets nearer to the end, and a callback does not get away from it. -/
theorem step_stepsToEnd {m m' : Machine} {l : Label} (hm : MachineOK E m)
    (hl : ∀ docs, l ≠ .start docs) (h : step E m l = some m') :
    stepsToEnd m' + (if isControl l then 1 else 0) ≤ stepsToEnd m := by
  have hqueue := (step_frame hm h hl).2
  unfold stepsToEnd
  rw [hqueue]
  cases step_cases h with
  | start _ _ => exact absurd rfl (hl _)
  | skip hp hnode _ =>
      have hlt := lt_length_of_getElem? hnode
      simp only [hp, isControl, if_true]
      omega
  | enter hp hnode _ =>
      have hlt := lt_length_of_getElem? hnode
      simp only [hp, isControl, if_true]
      omega
  | @event ctx ev p hctx hev =>
      cases hp : m.phase with
      | asm i ctx' => exact Nat.le_refl _
      | chess i ctx' => exact Nat.le_refl _
      | idle => rw [hp] at hctx; cases hctx
      | loop i => rw [hp] at hctx; cases hctx
      | ended i => rw [hp] at hctx; cases hctx
  | asmDone hp _ _ =>
      simp only [hp, isControl, if_true]
      omega
  | asmEnded hp _ =>
      simp only [hp, isControl, if_true]
      omega
  | chessDone hp =>
      simp only [hp, isControl, if_true]
      omega
  | leave hp _ =>
      simp only [hp, isControl, if_true]
      omega
  | finish hp _ =>
      simp only [hp, isControl, if_true]
      omega

theorem run_stepsToEnd {m n : Machine} {ks : List Label} (hm : MachineOK E m)
    (hks : ∀ docs, .start docs ∉ ks) (h : run (step E) m ks = some n) :
    ks.countP isControl + stepsToEnd n ≤ stepsToEnd m := by
  induction ks generalizing m with
  | nil =>
      cases h
      exact Nat.le_of_eq (Nat.zero_add _)
  | cons l ks ih =>
      obtain ⟨m', hstep, hrest⟩ := run_cons_some h
      have hfirst := step_stepsToEnd hm (fun docs he => hks docs (he ▸ List.mem_cons_self)) hstep
      have hrest := ih (step_ok hm hstep) (fun docs hd => hks docs (List.mem_cons_of_mem _ hd))
        hrest
      rw [List.countP_cons]
      omega

/-- An analysis that is not at its end has a next step. -/
theorem exists_control {m : Machine} (hm : Connectable E m) (hp : m.phase ≠ .idle) :
    ∃ l m', isControl l = true ∧ step E m l = some m' := by
  obtain ⟨a, phase⟩ := m
  cases phase with
  | idle => exact absurd rfl hp
  | loop i =>
      cases hnode : a.analyzeQueue[i]? with
      | none =>
          refine ⟨.finish, ⟨analyzeFinish E a, .idle⟩, rfl, ?_⟩
          simp only [step, hnode, if_true]
      | some node =>
          cases hanalyzed : a.isAnalyzed node with
          | true =>
              refine ⟨.skip, ⟨a, .loop (i + 1)⟩, rfl, ?_⟩
              simp only [step, hnode, hanalyzed, if_true]
          | false =>
              refine ⟨.enter, ⟨(startPass a node).analyzer, .asm i (startPass a node).ctx⟩, rfl, ?_⟩
              simp only [step, hnode, hanalyzed, Bool.false_eq_true, if_false]
  | asm i ctx => exact ⟨.asmDone false, ⟨a, .ended i⟩, rfl, by simp [step]⟩
  | chess i ctx => exact ⟨.chessDone, ⟨a, .ended i⟩, rfl, rfl⟩
  | ended i =>
      obtain ⟨m', hleave, -⟩ := leave_isSome hm rfl
      exact ⟨.leave, m', rfl, hleave⟩

theorem refersToOpened_of_control {m : Machine} {l : Label} (hl : isControl l = true) :
    RefersToOpened m l := by
  cases l with
  | event ev => exact absurd hl Bool.false_ne_true
  | start docs => trivial
  | skip => trivial
  | enter => trivial
  | asmDone success => trivial
  | chessDone => trivial
  | leave => trivial
  | finish => trivial

theorem run_to_end {m : Machine} (hm : Connectable E m) :
    ∃ ks n, run (step E) m ks = some n ∧ n.phase = .idle ∧ ∀ l ∈ ks, isControl l = true := by
  generalize hn : stepsToEnd m = left
  induction left using Nat.strongRecOn generalizing m with
  | ind left ih =>
      by_cases hp : m.phase = .idle
      · exact ⟨[], m, rfl, hp, fun _ hl => absurd hl List.not_mem_nil⟩
      · obtain ⟨l, m', hl, hstep⟩ := exists_control hm hp
        have hnearer := step_stepsToEnd hm.ok (fun docs he => by simp [he, isControl] at hl) hstep
        rw [hl] at hnearer
        have hm' := step_connectable hm (refersToOpened_of_control hl) hstep
        obtain ⟨ks, n, hrun, hidle, hks⟩ := ih _ (hn ▸ hnearer) hm' rfl
        refine ⟨l :: ks, n, ?_, hidle, fun l' hl' => ?_⟩
        · rw [run_cons, hstep, Option.bind_some, hrun]
        · rcases List.mem_cons.mp hl' with rfl | hl'
          · exact hl
          · exact hks l' hl'

/-- While the assembler only refers to files that it has opened, an analysis is never stuck: in
    every state that is reached it ends when the assembler returns, and any documents can be
    analyzed next. Whatever the assembler reports and returns, it takes at most four steps for
    each queued document. -/
theorem analysis_ends (E : Env) {ls : List Label} {m : Machine}
    (h : run (step E) Machine.init ls = some m)
    (hrefs : Meets (step E) RefersToOpened Machine.init ls) :
    (∃ ks n, run (step E) m ks = some n ∧ n.phase = .idle ∧ (∀ l ∈ ks, isControl l = true) ∧
      ∀ docs, (step E n (.start docs)).isSome = true) ∧
    ∀ ks n, run (step E) m ks = some n → (∀ docs, .start docs ∉ ks) →
      ks.countP isControl ≤ 4 * m.analyzer.analyzeQueue.length + 4 := by
  have hm : Connectable E m :=
    run_inv_of_meets (fun _ _ _ hs hC h => step_connectable hs hC h) (connectable_init E) hrefs h
  refine ⟨?_, fun ks n hrun hks => ?_⟩
  · obtain ⟨ks, n, hrun, hidle, hks⟩ := run_to_end hm
    refine ⟨ks, n, hrun, hidle, hks, fun docs => ?_⟩
    have hreach : Reachable (step E) Machine.init n := Reachable.run ⟨ls, h⟩ hrun
    simp only [step, hidle, Option.isSome_map]
    exact analyzeBegin_isSome E docs (reachable_graphOK hreach).current.acyclic
  · have hbound := run_stepsToEnd hm.ok hks hrun
    have hle := stepsToEnd_le m
    omega

/-! ## A pass with a reference to connect -/

/-- The first pass of `referringRun`, up to the return of the assembler. -/
def connectingRun : List Label := referringRun.take 6

theorem analysis_ends_connecting :
    ∃ m, run (step asciiEnv) Machine.init connectingRun = some m ∧
      m.analyzer.references.length = 1 ∧
      ∃ ks n, run (step asciiEnv) m ks = some n ∧ n.phase = .idle := by
  have hpending : (run (step asciiEnv) Machine.init connectingRun).map (fun m =>
      m.analyzer.references.length) = some 1 := by decide
  obtain ⟨m, hm, hone⟩ := Option.map_eq_some_iff.mp hpending
  obtain ⟨⟨ks, n, hrun, hidle, -⟩, -⟩ := analysis_ends asciiEnv hm (by decide)
  exact ⟨m, hm, hone, ks, n, hrun, hidle⟩

/-! ## The macros of the references -/

/-- The symbol is no macro reference, or `macro_defs[sym->id - 1]` is there. -/
def MacroInRange (a : Analyzer) (sym : AsmSym) : Prop :=
  sym.type = .macroRef → 0 < sym.id.toNat ∧ sym.id.toNat ≤ a.macroDefs.length

instance (a : Analyzer) (sym : AsmSym) : Decidable (MacroInRange a sym) :=
  inferInstanceAs (Decidable (_ → _))

/-- The assembler numbers the macros of a pass in the order in which it delivers them, and refers
    to those it has delivered: macros cannot be forward declared. -/
def RefersToDelivered (m : Machine) : Label → Prop
  | .event (.putSymbol _ sym _) => MacroInRange m.analyzer sym
  | _ => True

instance (m : Machine) (l : Label) : Decidable (RefersToDelivered m l) :=
  match l with
  | .event (.putSymbol _ sym _) => inferInstanceAs (Decidable (MacroInRange m.analyzer sym))
  | .event (.fopen _ _ _) | .event (.report _ _) | .event (.putRom _ _)
  | .event (.chessReport _ _ _) | .event (.chessDeo _ _ _ _) | .start _ | .skip | .enter
  | .asmDone _ | .chessDone | .leave | .finish => isTrue trivial

theorem MacroInRange.mono {a b : Analyzer} (hab : a.macroDefs <+: b.macroDefs) {sym : AsmSym}
    (h : MacroInRange a sym) : MacroInRange b sym :=
  fun ht => ⟨(h ht).1, Nat.le_trans (h ht).2 hab.length_le⟩

instance (phase : Phase) : Decidable (inPass phase) :=
  match phase with
  | .asm _ _ | .chess _ _ | .ended _ => isTrue trivial
  | .idle | .loop _ => isFalse id

/-- The macros of the pending references are in range. -/
def MacrosInRange (m : Machine) : Prop :=
  inPass m.phase → ∀ sym ∈ m.analyzer.references, MacroInRange m.analyzer sym

theorem macrosInRange_init : MacrosInRange Machine.init := fun h => h.elim

theorem step_macrosInRange {m m' : Machine} {l : Label} (hm : MacrosInRange m)
    (hl : RefersToDelivered m l) (h : step E m l = some m') : MacrosInRange m' := by
  cases step_cases h with
  | start _ _ => exact fun hin => hin.elim
  | skip _ _ _ => exact fun hin => hin.elim
  | enter _ _ _ => exact fun _ sym hsym => absurd hsym List.not_mem_nil
  | @event ctx ev p hctx hev =>
      intro _ sym hsym
      have hadds := applyEvent_adds hev
      rcases hadds.references sym hsym with hold | ⟨-, addr, annos, rfl⟩
      · exact (hm (inPass_of_passCtx hctx) sym hold).mono hadds.macros
      · exact MacroInRange.mono hadds.macros hl
  | asmDone hp _ _ => exact fun _ => hm (hp ▸ trivial)
  | asmEnded hp _ => exact fun _ => hm (hp ▸ trivial)
  | chessDone hp => exact fun _ => hm (hp ▸ trivial)
  | leave _ _ => exact fun hin => hin.elim
  | finish _ _ => exact fun hin => hin.elim

def callingDocs : Docs := Table.empty.put (ascii "a") (ascii "%foo { } foo")

def calledMacro : AsmSym where
  type := .macroDef
  name := ascii "foo"
  name_cStr := cStr_foo
  nameIsGenerated := false
  id := 1
  region := ⟨⟨1, ascii "a"⟩, ⟨⟨1, 1, 0⟩, ⟨1, 5, 4⟩⟩⟩

def macroCall : AsmSym :=
  { calledMacro with type := .macroRef, region := ⟨⟨1, ascii "a"⟩, ⟨⟨1, 10, 9⟩, ⟨1, 13, 12⟩⟩⟩ }

/-- The pass over `a` up to the return of the assembler. -/
def callingRun : List Label :=
  [.start callingDocs, .enter, .event (.fopen callingDocs ⟨1, ascii "a"⟩ none),
    .event (.putSymbol 256 calledMacro []), .event (.putSymbol 256 macroCall []),
    .asmDone false]

end BuxnLs.Analysis
