/-
  `buxn_ls_analyze` as a machine that can be stopped after every callback of the assembler: the
  states that a suspended `buxn_asm_fopen` leaves visible are states of this machine.
  `analyze_run` ties it to the function `analyze`: a whole analysis is a run from `idle` to
  `idle`.
-/
import BuxnLs.Lib.Run
import BuxnLs.Model.Analyze

namespace BuxnLs.Model

open BuxnLs.Lib

/-- Where `buxn_ls_analyze` stands. The index is that of its loop over `analyze_queue`. -/
inductive Phase where
  | idle
  | loop (i : Nat)
  | asm (i : Nat) (ctx : AsmCtx)
  | chess (i : Nat) (ctx : AsmCtx)
  | ended (i : Nat)

namespace Phase

/-- The context of the pass in progress. -/
def passCtx : Phase → Option AsmCtx
  | asm _ ctx | chess _ ctx => some ctx
  | _ => none

def withCtx (ctx : AsmCtx) : Phase → Phase
  | asm i _ => asm i ctx
  | chess i _ => chess i ctx
  | p => p

end Phase

instance (p : Phase) : Decidable (p = .idle) :=
  match p with
  | .idle => isTrue rfl
  | .loop _ | .asm _ _ | .chess _ _ | .ended _ => isFalse fun h => by cases h

structure Machine where
  analyzer : Analyzer
  phase : Phase

def Machine.init : Machine := ⟨.init, .idle⟩

/-- The steps of `buxn_ls_analyze`.

    * `start` runs to the head of the main loop
    * `skip` and `enter` are an iteration that finds the entry analyzed or not
    * `event` is a callback of `buxn_asm` or `buxn_chess_end`
    * `asmDone` and `chessDone` are their returns, `leave` is what follows in the iteration
    * `finish` leaves the loop and sorts -/
inductive Label where
  | start (docs : Docs)
  | skip
  | enter
  | event (ev : Event)
  | asmDone (success : Bool)
  | chessDone
  | leave
  | finish

def step (E : Env) (m : Machine) : Label → Option Machine
  | .start docs =>
    match m.phase with
    | .idle => (analyzeBegin E docs m.analyzer).map fun a => ⟨a, .loop 0⟩
    | _ => none
  | .skip =>
    match m.phase with
    | .loop i =>
      match m.analyzer.analyzeQueue[i]? with
      | some node =>
        if m.analyzer.isAnalyzed node then some ⟨m.analyzer, .loop (i + 1)⟩ else none
      | none => none
    | _ => none
  | .enter =>
    match m.phase with
    | .loop i =>
      match m.analyzer.analyzeQueue[i]? with
      | some node =>
        if m.analyzer.isAnalyzed node then none
        else
          let p := startPass m.analyzer node
          some ⟨p.analyzer, .asm i p.ctx⟩
      | none => none
    | _ => none
  | .event ev =>
    match m.phase.passCtx with
    | some ctx =>
      (applyEvent E ⟨m.analyzer, ctx⟩ ev).map fun p => ⟨p.analyzer, m.phase.withCtx p.ctx⟩
    | none => none
  | .asmDone success =>
    match m.phase with
    | .asm i ctx =>
      if success ∧ ¬ ctx.romIsEmpty then some ⟨m.analyzer, .chess i ctx⟩
      else some ⟨m.analyzer, .ended i⟩
    | _ => none
  | .chessDone =>
    match m.phase with
    | .chess i _ => some ⟨m.analyzer, .ended i⟩
    | _ => none
  | .leave =>
    match m.phase with
    | .ended i => (leavePass E m.analyzer).map fun a => ⟨a, .loop (i + 1)⟩
    | _ => none
  | .finish =>
    match m.phase with
    | .loop i =>
      if m.analyzer.analyzeQueue[i]? = none then some ⟨analyzeFinish E m.analyzer, .idle⟩
      else none
    | _ => none

/-! ## What a step can do -/

/-- The cases of `step`, with their guards. -/
inductive StepCase (E : Env) (m : Machine) : Label → Machine → Prop where
  | start {docs a} : m.phase = .idle → analyzeBegin E docs m.analyzer = some a →
      StepCase E m (.start docs) ⟨a, .loop 0⟩
  | skip {i node} : m.phase = .loop i → m.analyzer.analyzeQueue[i]? = some node →
      m.analyzer.isAnalyzed node = true → StepCase E m .skip ⟨m.analyzer, .loop (i + 1)⟩
  | enter {i node} : m.phase = .loop i → m.analyzer.analyzeQueue[i]? = some node →
      m.analyzer.isAnalyzed node = false →
      StepCase E m .enter
        ⟨(startPass m.analyzer node).analyzer, .asm i (startPass m.analyzer node).ctx⟩
  | event {ctx ev p} : m.phase.passCtx = some ctx →
      applyEvent E ⟨m.analyzer, ctx⟩ ev = some p →
      StepCase E m (.event ev) ⟨p.analyzer, m.phase.withCtx p.ctx⟩
  | asmDone {i ctx success} : m.phase = .asm i ctx → success = true → ctx.romIsEmpty = false →
      StepCase E m (.asmDone success) ⟨m.analyzer, .chess i ctx⟩
  | asmEnded {i ctx success} : m.phase = .asm i ctx →
      ¬ (success = true ∧ ctx.romIsEmpty = false) →
      StepCase E m (.asmDone success) ⟨m.analyzer, .ended i⟩
  | chessDone {i ctx} : m.phase = .chess i ctx → StepCase E m .chessDone ⟨m.analyzer, .ended i⟩
  | leave {i a} : m.phase = .ended i → leavePass E m.analyzer = some a →
      StepCase E m .leave ⟨a, .loop (i + 1)⟩
  | finish {i} : m.phase = .loop i → m.analyzer.analyzeQueue[i]? = none →
      StepCase E m .finish ⟨analyzeFinish E m.analyzer, .idle⟩

theorem step_cases {E : Env} {m m' : Machine} {l : Label} (h : step E m l = some m') :
    StepCase E m l m' := by
  cases l with
  | start docs =>
      simp only [step] at h
      split at h
      · rename_i hp
        obtain ⟨a, ha, rfl⟩ := Option.map_eq_some_iff.mp h
        exact .start hp ha
      · cases h
  | skip =>
      simp only [step] at h
      split at h
      · rename_i i hp
        split at h
        · rename_i node hq
          split at h
          · rename_i ha
            cases h
            exact .skip hp hq ha
          · cases h
        · cases h
      · cases h
  | enter =>
      simp only [step] at h
      split at h
      · rename_i i hp
        split at h
        · rename_i node hq
          split at h
          · cases h
          · rename_i ha
            cases h
            exact .enter hp hq (by simpa using ha)
        · cases h
      · cases h
  | event ev =>
      simp only [step] at h
      split at h
      · rename_i ctx hp
        obtain ⟨p, hev, rfl⟩ := Option.map_eq_some_iff.mp h
        exact .event hp hev
      · cases h
  | asmDone success =>
      simp only [step] at h
      split at h
      · rename_i i ctx hp
        split at h
        · rename_i hc
          cases h
          exact .asmDone hp hc.1 (by simpa using hc.2)
        · rename_i hc
          cases h
          exact .asmEnded hp (by simpa using hc)
      · cases h
  | chessDone =>
      simp only [step] at h
      split at h
      · rename_i i ctx hp
        cases h
        exact .chessDone hp
      · cases h
  | leave =>
      simp only [step] at h
      split at h
      · rename_i i hp
        obtain ⟨a, ha, rfl⟩ := Option.map_eq_some_iff.mp h
        exact .leave hp ha
      · cases h
  | finish =>
      simp only [step] at h
      split at h
      · rename_i i hp
        split at h
        · rename_i hq
          cases h
          exact .finish hp hq
        · cases h
      · cases h

end BuxnLs.Model
