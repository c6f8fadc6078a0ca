/-
  Which node an annotation changes. `buxn_ls_handle_annotation` is told the symbol that the
  annotation belongs to and does not look at it: it writes to `current_sym_node`. Beside a pass
  runs the list of the labels and macros it has delivered, each with the node allocated for it
  (`Created`); `current_sym_node` is the newest of these nodes (`passCalls_owned`). So a call
  changes the node of its symbol exactly when that is the newest node, or when it writes what
  already stands there: `annotations_attach_iff`. A symbol with a generated name has no node.
-/
import BuxnLs.Analysis.Invariant
import BuxnLs.Model.AsciiEnv

namespace BuxnLs.Analysis

open BuxnLs.Lib BuxnLs.Model

/-! ## What a call writes -/

/-- What a call writes to a symbol node; `buxn:device` and `buxn:memory` write to a file. -/
def callWrite (a : Analyzer) (call : AnnoCall) : Option (SymNode → SymNode) :=
  match call.annotation with
  | none => some fun node =>
      { node with semantics := .asSubroutine, signature := sliceFile a call.region }
  | some .doc => some fun node => { node with documentation := sliceFile a call.region }
  | some .buxnEnum => some fun node => { node with semantics := .asEnum }
  | some .buxnDevice | some .buxnMemory => none

/-- The assertion of the handler: an annotation comes from an opened file. -/
def FileOpened (a : Analyzer) (call : AnnoCall) : Prop :=
  call.annotation = none ∨ ∃ file, a.files.find? call.region.filename.chars = some file

theorem handleAnnotation_unopened {p : Pass} {call : AnnoCall}
    (h : ¬ FileOpened p.analyzer call) : handleAnnotation p call = none := by
  unfold FileOpened at h
  cases hanno : call.annotation with
  | none => exact absurd (Or.inl hanno) h
  | some annotation =>
      cases hfile : p.analyzer.files.find? call.region.filename.chars with
      | none => simp only [hanno, handleAnnotation, hfile]
      | some file => exact absurd (Or.inr ⟨file, hfile⟩) h

/-- A call that writes to no node leaves the nodes and the current one. -/
theorem handleAnnotation_quiet {p : Pass} {call : AnnoCall} (hopen : FileOpened p.analyzer call)
    (hw : callWrite p.analyzer call = none) :
    ∃ q, handleAnnotation p call = some q ∧ q.analyzer.current = p.analyzer.current := by
  cases hanno : call.annotation with
  | none => simp [callWrite, hanno] at hw
  | some annotation =>
      obtain hnone | ⟨file, hfile⟩ := hopen
      · rw [hanno] at hnone
        cases hnone
      · cases annotation with
        | doc => simp [callWrite, hanno] at hw
        | buxnEnum => simp [callWrite, hanno] at hw
        | buxnDevice =>
            simp only [hanno, handleAnnotation, hfile]
            exact ⟨_, rfl, rfl⟩
        | buxnMemory =>
            simp only [hanno, handleAnnotation, hfile]
            exact ⟨_, rfl, rfl⟩

/-- A call that writes to a node writes to the current one. -/
theorem handleAnnotation_write {p : Pass} {call : AnnoCall} {f : SymNode → SymNode}
    (hopen : FileOpened p.analyzer call) (hw : callWrite p.analyzer call = some f) :
    handleAnnotation p call = none ∧ p.ctx.currentSymNode = none ∨
    ∃ id q, p.ctx.currentSymNode = some id ∧ handleAnnotation p call = some q ∧
      q.analyzer.current.syms = p.analyzer.current.syms.modify id f := by
  unfold FileOpened at hopen
  unfold callWrite at hw
  unfold handleAnnotation
  cases hanno : call.annotation with
  | none =>
      simp only [hanno, Option.some.injEq] at hw
      subst hw
      cases hid : p.ctx.currentSymNode with
      | none => exact Or.inl ⟨rfl, rfl⟩
      | some id => exact Or.inr ⟨id, _, rfl, rfl, rfl⟩
  | some annotation =>
      obtain ⟨file, hfile⟩ :
          ∃ file, p.analyzer.files.find? call.region.filename.chars = some file :=
        hopen.resolve_left (by rw [hanno]; exact Option.some_ne_none _)
      cases annotation with
      | doc =>
          simp only [hanno, Option.some.injEq] at hw
          subst hw
          simp only [hfile]
          cases hid : p.ctx.currentSymNode with
          | none => exact Or.inl ⟨rfl, rfl⟩
          | some id => exact Or.inr ⟨id, _, rfl, rfl, rfl⟩
      | buxnEnum =>
          simp only [hanno, Option.some.injEq] at hw
          subst hw
          simp only [hfile]
          cases hid : p.ctx.currentSymNode with
          | none => exact Or.inl ⟨rfl, rfl⟩
          | some id => exact Or.inr ⟨id, _, rfl, rfl, rfl⟩
      | buxnDevice => simp [hanno] at hw
      | buxnMemory => simp [hanno] at hw

/-! ## The nodes of the symbols delivered -/

/-- The labels and macros delivered in a pass, newest first, each with the node allocated for it. -/
abbrev Created := List (AsmSym × Option SymId)

namespace Created

/-- The node created for a symbol. -/
def nodeOf (c : Created) (sym : AsmSym) : Option SymId := (c.find? (·.1 = sym)).bind Prod.snd

/-- The newest node. -/
def newest (c : Created) : Option SymId := c.findSome? Prod.snd

end Created

/-- Note a delivered label or macro, with the node that the callback has allocated. -/
def noteCreated (before after : Pass) (sym : AsmSym) (c : Created) : Created :=
  if sym.type = .macroDef ∨ sym.type = .label then
    let old := before.analyzer.current.syms.length
    (sym, if old < after.analyzer.current.syms.length then some old else none) :: c
  else c

/-- A handler call, in the state in which it is made. -/
structure CallState where
  created : Created
  pass : Pass
  call : AnnoCall

/-- The handler calls of one symbol. -/
def callStates (c : Created) : Pass → List AnnoCall → List CallState
  | _, [] => []
  | p, call :: calls =>
    let after := handleAnnotation p call
    ⟨c, p, call⟩ :: after.elim [] fun q => callStates c q calls

/-- The symbols delivered after one callback. -/
def eventCreated (E : Env) (c : Created) (p : Pass) : Event → Created
  | .putSymbol addr sym _ =>
    if p.ctx.repeats sym then c
    else (putSymNode E p addr sym).elim c fun q => noteCreated p q sym c
  | _ => c

/-- The handler calls of one callback. -/
def eventCalls (E : Env) (c : Created) (p : Pass) : Event → List CallState
  | .putSymbol addr sym annos =>
    if p.ctx.repeats sym then []
    else (putSymNode E p addr sym).elim [] fun q =>
      callStates (noteCreated p q sym c) { q with ctx := { q.ctx with previousSym := some sym } }
        annos
  | _ => []

/-- The handler calls of a pass. -/
def passCalls (E : Env) : Created → Pass → List Event → List CallState
  | _, _, [] => []
  | c, p, ev :: events =>
    eventCalls E c p ev ++
      (applyEvent E p ev).elim [] fun q => passCalls E (eventCreated E c p ev) q events

/-! ## The current node is the newest one -/

/-- The state of a pass beside its list. -/
structure Owned (E : Env) (c : Created) (p : Pass) : Prop where
  ok : PassOK E p
  current : p.ctx.currentSymNode = c.newest

theorem putSymNode_owned {E : Env} {c : Created} {p q : Pass} {addr : UInt16} {sym : AsmSym}
    (h : Owned E c p) (hq : putSymNode E p addr sym = some q) :
    Owned E (noteCreated p q sym c) q := by
  have hok := (putSymNode_effect h.ok hq).ok
  obtain ⟨htype, hdef⟩ | ⟨hother, refs, rfl⟩ := putSymNode_type_cases hq
  · unfold noteCreated
    rw [if_pos htype]
    obtain ⟨file, -, -, rfl⟩ | ⟨-, file, a, node, hnode⟩ := putDefinition_cases hdef
    · dsimp only
      rw [noteSymbolByte_current, if_neg (Nat.lt_irrefl _)]
      exact ⟨hok, h.current⟩
    · obtain ⟨enumScope, hctx⟩ := hnode.ctx
      have ha : a.current = p.analyzer.current :=
        hnode.lines.current.trans (noteSymbolByte_current _ _ _ _)
      have hlen : q.analyzer.current.syms.length = p.analyzer.current.syms.length + 1 := by
        rw [hnode.current, ha]
        simp [linkDefinition]
      dsimp only
      rw [if_pos (by omega)]
      exact ⟨hok, by rw [hctx, ha]; rfl⟩
  · rw [noteCreated, if_neg (not_or.mpr hother)]
    exact ⟨hok, h.current⟩

theorem handleAnnotation_owned {E : Env} {c : Created} {p q : Pass} {call : AnnoCall}
    (h : Owned E c p) (hq : handleAnnotation p call = some q) : Owned E c q := by
  refine ⟨(handleAnnotation_effect h.ok hq).ok, ?_⟩
  obtain ⟨hctx, -⟩ | ⟨id, f, enumScope, -, -, hctx, -⟩ := handleAnnotation_cases hq
  · rw [hctx, h.current]
  · rw [hctx]
    exact h.current

theorem callStates_owned {E : Env} {c : Created} {calls : List AnnoCall} {p : Pass}
    (h : Owned E c p) : ∀ s ∈ callStates c p calls, Owned E s.created s.pass := by
  induction calls generalizing p with
  | nil => exact fun s hs => absurd hs List.not_mem_nil
  | cons call calls ih =>
      intro s hs
      rw [callStates, List.mem_cons] at hs
      obtain rfl | hs := hs
      · exact h
      · cases hcall : handleAnnotation p call with
        | none =>
            rw [hcall] at hs
            exact absurd hs List.not_mem_nil
        | some q =>
            rw [hcall] at hs
            exact ih (handleAnnotation_owned h hcall) s hs

/-- The symbol is delivered. -/
theorem Owned.delivered {E : Env} {c : Created} {q : Pass} (h : Owned E c q) (sym : AsmSym) :
    Owned E c { q with ctx := { q.ctx with previousSym := some sym } } :=
  ⟨⟨h.ok.wf, h.ok.listed, h.ok.recent⟩, h.current⟩

theorem eventCalls_owned {E : Env} {c : Created} {p : Pass} {ev : Event} (h : Owned E c p) :
    ∀ s ∈ eventCalls E c p ev, Owned E s.created s.pass := by
  intro s hs
  cases ev with
  | putSymbol addr sym annos =>
      rw [eventCalls] at hs
      split at hs
      · exact absurd hs List.not_mem_nil
      · cases hq : putSymNode E p addr sym with
        | none =>
            rw [hq] at hs
            exact absurd hs List.not_mem_nil
        | some q =>
            rw [hq] at hs
            exact callStates_owned ((putSymNode_owned h hq).delivered sym) s hs
  | _ => exact absurd hs List.not_mem_nil

theorem applyEvent_owned {E : Env} {c : Created} {p q : Pass} {ev : Event} (h : Owned E c p)
    (hq : applyEvent E p ev = some q) : Owned E (eventCreated E c p ev) q := by
  have hok := (applyEvent_effect h.ok hq).ok
  cases ev with
  | putSymbol addr sym annos =>
      rw [eventCreated]
      obtain ⟨hrep, rfl⟩ | ⟨hrep, r, hr, hannos⟩ := asmPutSymbol_cases hq
      · rw [if_pos hrep]
        exact h
      · rw [if_neg hrep, hr]
        exact foldlM_inv (P := Owned E (noteCreated p r sym c))
          (fun _ _ _ _ ho hs => handleAnnotation_owned ho hs)
          ((putSymNode_owned h hr).delivered sym) hannos
  | fopen docs filename disk =>
      cases hq
      exact ⟨hok, (congrArg AsmCtx.currentSymNode (asmFopen_ctx E p docs filename disk)).trans
        h.current⟩
  | report type r =>
      cases hq
      exact ⟨hok, h.current⟩
  | putRom addr value =>
      cases hq
      exact ⟨hok, h.current⟩
  | chessReport traceId type r =>
      cases hq
      exact ⟨hok, h.current⟩
  | chessDeo traceId s value port =>
      cases hq
      exact ⟨hok, h.current⟩

theorem passCalls_owned {E : Env} {c : Created} {p : Pass} {events : List Event}
    (h : Owned E c p) : ∀ s ∈ passCalls E c p events, Owned E s.created s.pass := by
  induction events generalizing c p with
  | nil => exact fun s hs => absurd hs List.not_mem_nil
  | cons ev events ih =>
      intro s hs
      rw [passCalls, List.mem_append] at hs
      rcases hs with hs | hs
      · exact eventCalls_owned h s hs
      · cases hq : applyEvent E p ev with
        | none =>
            rw [hq] at hs
            exact absurd hs List.not_mem_nil
        | some q =>
            rw [hq] at hs
            exact ih (applyEvent_owned h hq) s hs

/-! ## The node of the symbol -/

namespace CallState

/-- The call does not fail on an absent node, and changes at most the node of its symbol. -/
structure Attaches (s : CallState) : Prop where
  present : FileOpened s.pass.analyzer s.call → ∃ q, handleAnnotation s.pass s.call = some q
  frame : ∀ q, handleAnnotation s.pass s.call = some q →
    ∀ id, s.created.nodeOf s.call.sym ≠ some id →
      q.analyzer.current.syms[id]? = s.pass.analyzer.current.syms[id]?

/-- The symbol of the call has the newest node. -/
def OwnNode (s : CallState) : Prop :=
  ∃ id, s.created.newest = some id ∧ s.created.nodeOf s.call.sym = some id

/-- The newest node already is what the call would make it. -/
def Idle (s : CallState) (f : SymNode → SymNode) : Prop :=
  ∃ id node, s.created.newest = some id ∧
    s.pass.analyzer.current.syms[id]? = some node ∧ f node = node

/-- A call that writes to a node writes to that of its symbol, or changes nothing. -/
def Meets (s : CallState) : Prop :=
  ∀ f, callWrite s.pass.analyzer s.call = some f → FileOpened s.pass.analyzer s.call →
    s.OwnNode ∨ s.Idle f

theorem attaches_of_meets {E : Env} {s : CallState} (h : Owned E s.created s.pass)
    (hm : s.Meets) : s.Attaches := by
  cases hw : callWrite s.pass.analyzer s.call with
  | none =>
      refine ⟨fun hopen => ?_, fun q hq id _ => ?_⟩
      · obtain ⟨q, hq, -⟩ := handleAnnotation_quiet hopen hw
        exact ⟨q, hq⟩
      · by_cases hopen : FileOpened s.pass.analyzer s.call
        · obtain ⟨q', hq', hcur⟩ := handleAnnotation_quiet hopen hw
          cases hq.symm.trans hq'
          rw [hcur]
        · rw [handleAnnotation_unopened hopen] at hq
          cases hq
  | some f =>
      by_cases hopen : FileOpened s.pass.analyzer s.call
      · have hcase := hm f hw hopen
        obtain ⟨id, hnew⟩ : ∃ id, s.created.newest = some id := by
          obtain ⟨id, hnew, -⟩ | ⟨id, node, hnew, -, -⟩ := hcase <;> exact ⟨id, hnew⟩
        obtain ⟨-, hnone⟩ | ⟨id', q', hid, hq', hsyms⟩ := handleAnnotation_write hopen hw
        · rw [h.current, hnew] at hnone
          cases hnone
        · rw [h.current, hnew] at hid
          cases hid
          refine ⟨fun _ => ⟨q', hq'⟩, fun q hq i hi => ?_⟩
          cases hq.symm.trans hq'
          rw [hsyms]
          obtain ⟨_, hnew', hof⟩ | ⟨_, node, hnew', hnode, hf⟩ := hcase
          · cases hnew.symm.trans hnew'
            exact List.getElem?_modify_ne f _ fun he : id = i => hi (he ▸ hof)
          · cases hnew.symm.trans hnew'
            by_cases he : id = i
            · rw [← he, List.getElem?_modify_eq, hnode]
              exact congrArg some hf
            · exact List.getElem?_modify_ne f _ he
      · refine ⟨fun ho => absurd ho hopen, fun q hq => ?_⟩
        rw [handleAnnotation_unopened hopen] at hq
        cases hq

theorem meets_of_attaches {E : Env} {s : CallState} (h : Owned E s.created s.pass)
    (ha : s.Attaches) : s.Meets := by
  intro f hw hopen
  obtain ⟨hnone, -⟩ | ⟨id, q, hid, hq, hsyms⟩ := handleAnnotation_write hopen hw
  · obtain ⟨q, hsome⟩ := ha.present hopen
    cases hnone.symm.trans hsome
  · have hnew : s.created.newest = some id := h.current.symm.trans hid
    by_cases hof : s.created.nodeOf s.call.sym = some id
    · exact Or.inl ⟨id, hnew, hof⟩
    · obtain ⟨node, -, -, hnode, -⟩ := h.ok.recent id hid
      have hsame := ha.frame q hq id hof
      rw [hsyms, List.getElem?_modify_eq, hnode] at hsame
      exact Or.inr ⟨id, node, hnew, hnode, Option.some.inj hsame⟩

end CallState

/-- In every pass, a call changes at most the node of its symbol, and misses no node, exactly when
    its symbol has the newest node or the call changes nothing. -/
theorem annotations_attach_iff {E : Env} {m : Machine} (hm : Reachable (step E) Machine.init m)
    (entry : SrcId) (events : List Event) :
    ∀ s ∈ passCalls E [] (startPass m.analyzer entry) events, s.Attaches ↔ s.Meets := by
  intro s hs
  have hstart : Owned E [] (startPass m.analyzer entry) := by
    refine ⟨⟨(reachable_ok hm).current, ⟨fun id hid => ?_, fun k id hid => ?_⟩, fun id hid => ?_⟩,
      rfl⟩
    · simp [startPass] at hid
    · simp [startPass] at hid
    · simp [startPass] at hid
  have howned := passCalls_owned hstart s hs
  exact ⟨CallState.meets_of_attaches howned, CallState.attaches_of_meets howned⟩

/-! ## A symbol with a generated name -/

def annotatedDocs : Docs := Table.empty.put (ascii "a") (ascii "@foo { BRK } ( -- )")

def namedSym : AsmSym where
  type := .label
  name := ascii "foo"
  name_cStr := cStr_foo
  nameIsGenerated := false
  id := 1
  region := ⟨⟨1, ascii "a"⟩, ⟨⟨1, 1, 0⟩, ⟨1, 5, 4⟩⟩⟩

def generatedSym : AsmSym where
  type := .label
  name := ascii "0x1"
  nameIsGenerated := true
  id := 2
  region := ⟨⟨1, ascii "a"⟩, ⟨⟨1, 6, 5⟩, ⟨1, 7, 6⟩⟩⟩

/-- A stack comment of `sym`. -/
def stackComment (sym : AsmSym) : AnnoCall where
  addr := 0x100
  sym := sym
  annotation := none
  region := ⟨⟨1, ascii "a"⟩, ⟨⟨1, 14, 13⟩, ⟨1, 20, 19⟩⟩⟩

/-- A pass that delivers the symbols, the last one with its stack comment. -/
def commentedEvents (before : List AsmSym) (sym : AsmSym) : List Event :=
  .fopen annotatedDocs ⟨1, ascii "a"⟩ none ::
    before.map (fun s => .putSymbol 0x100 s []) ++ [.putSymbol 0x100 sym [stackComment sym]]

/-- The first handler call of that pass, after the start of an analysis. -/
def commentedCall (before : List AsmSym) (sym : AsmSym) (m : Machine) : Option CallState :=
  (passCalls asciiEnv [] (startPass m.analyzer 0) (commentedEvents before sym)).head?

theorem annotations_attach_named :
    ∃ m s, run (step asciiEnv) Machine.init [.start annotatedDocs] = some m ∧
      s ∈ passCalls asciiEnv [] (startPass m.analyzer 0) (commentedEvents [] namedSym) ∧
      s.created.newest = some 0 ∧ s.Attaches := by
  have hout : ((run (step asciiEnv) Machine.init [.start annotatedDocs]).bind
      (commentedCall [] namedSym)).map
        (fun s => (s.created.newest, s.created.nodeOf s.call.sym)) = some (some 0, some 0) := by
    decide
  obtain ⟨s, hs, hnodes⟩ := Option.map_eq_some_iff.mp hout
  obtain ⟨m, hm, hs⟩ := Option.bind_eq_some_iff.mp hs
  obtain ⟨hnew, hof⟩ := Prod.mk.inj hnodes
  have hmem := List.mem_of_mem_head? hs
  exact ⟨m, s, hm, hmem, hnew, (annotations_attach_iff ⟨_, hm⟩ 0 _ s hmem).mpr
    fun _ _ _ => Or.inl ⟨0, hnew, hof⟩⟩

/-- The stack comment of a symbol with a generated name: behind the label `foo` it changes the
    node of `foo`, as the first symbol of the pass it writes to no node and fails. -/
theorem generated_changes_other :
    (∃ m s q, run (step asciiEnv) Machine.init [.start annotatedDocs] = some m ∧
      s ∈ passCalls asciiEnv [] (startPass m.analyzer 0)
        (commentedEvents [namedSym] generatedSym) ∧
      s.created.nodeOf s.call.sym = none ∧ handleAnnotation s.pass s.call = some q ∧
      q.analyzer.current.syms[0]? ≠ s.pass.analyzer.current.syms[0]? ∧ ¬ s.Attaches) ∧
    (∃ m s, run (step asciiEnv) Machine.init [.start annotatedDocs] = some m ∧
      s ∈ passCalls asciiEnv [] (startPass m.analyzer 0) (commentedEvents [] generatedSym) ∧
      handleAnnotation s.pass s.call = none ∧ ¬ s.Attaches) := by
  constructor
  · have hout : ((run (step asciiEnv) Machine.init [.start annotatedDocs]).bind
        (commentedCall [namedSym] generatedSym)).bind
          (fun s => handleAnnotation s.pass s.call |>.map fun q =>
            (s.created.nodeOf s.call.sym,
              decide (q.analyzer.current.syms[0]? = s.pass.analyzer.current.syms[0]?))) =
          some (none, false) := by
      decide
    obtain ⟨s, hs, hcall⟩ := Option.bind_eq_some_iff.mp hout
    obtain ⟨m, hm, hs⟩ := Option.bind_eq_some_iff.mp hs
    obtain ⟨q, hq, hpair⟩ := Option.map_eq_some_iff.mp hcall
    obtain ⟨hof, hne⟩ := Prod.mk.inj hpair
    have hne := of_decide_eq_false hne
    refine ⟨m, s, q, hm, List.mem_of_mem_head? hs, hof, hq, hne, fun ha => hne ?_⟩
    exact ha.frame q hq 0 (by rw [hof]; exact fun h => by cases h)
  · have hout : ((run (step asciiEnv) Machine.init [.start annotatedDocs]).bind
        (commentedCall [] generatedSym)).map
          (fun s => (s.call.annotation, Option.isSome <| handleAnnotation s.pass s.call)) =
          some (none, false) := by
      decide
    obtain ⟨s, hs, hpair⟩ := Option.map_eq_some_iff.mp hout
    obtain ⟨m, hm, hs⟩ := Option.bind_eq_some_iff.mp hs
    obtain ⟨hanno, hnone⟩ := Prod.mk.inj hpair
    refine ⟨m, s, hm, List.mem_of_mem_head? hs, by simpa using hnone, fun ha => ?_⟩
    obtain ⟨q, hsome⟩ := ha.present (Or.inl hanno)
    rw [hsome] at hnone
    cases hnone

end BuxnLs.Analysis
