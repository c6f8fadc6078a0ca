/-
  The function `analyze` and the machine agree: when `analyze` returns, the machine runs from
  `idle` to `idle` with the same result, one pass of `analyzeLoop` after the other.
-/
import BuxnLs.Analysis.Invariant

namespace BuxnLs.Analysis

open BuxnLs.Lib BuxnLs.Model

/-- The callbacks of a list are steps of the machine. -/
theorem events_run {E : Env} (events : List Event) {a : Analyzer} {p : Phase} {ctx : AsmCtx}
    {q : Pass} (hp : p.passCtx = some ctx)
    (h : events.foldlM (applyEvent E) ⟨a, ctx⟩ = some q) :
    run (step E) ⟨a, p⟩ (events.map .event) = some ⟨q.analyzer, p.withCtx q.ctx⟩ := by
  induction events generalizing a p ctx with
  | nil =>
      obtain rfl := Option.some.inj h
      cases p with
      | asm i c => cases hp; rfl
      | chess i c => cases hp; rfl
      | idle => cases hp
      | loop i => cases hp
      | ended i => cases hp
  | cons ev events ih =>
      rw [List.foldlM_cons, Option.bind_eq_bind, Option.bind_eq_some_iff] at h
      obtain ⟨r, hr, h⟩ := h
      have hstep : step E ⟨a, p⟩ (.event ev) = some ⟨r.analyzer, p.withCtx r.ctx⟩ := by
        simp only [step, hp, hr, Option.map_some]
      rw [List.map_cons, run_cons, hstep, Option.bind_some, ih (inPass_withCtx hp) h]
      cases p <;> rfl

/-- The events of a pass, `asmDone`, and what chess adds. -/
theorem runPass_run {E : Env} {a a' : Analyzer} {i : Nat} {node : SrcId} {input : PassInput}
    (hq : a.analyzeQueue[i]? = some node) (ha : a.isAnalyzed node = false)
    (h : runPass E a node input = some a') :
    ∃ ls, (∀ docs, Label.start docs ∉ ls) ∧
      run (step E) ⟨a, .loop i⟩ ls = some ⟨a', .loop (i + 1)⟩ := by
  unfold runPass at h
  obtain ⟨p, hp, h⟩ := Option.bind_eq_some_iff.mp h
  have henter : step E ⟨a, .loop i⟩ .enter =
      some ⟨(startPass a node).analyzer, .asm i (startPass a node).ctx⟩ := by
    simp only [step, hq, ha, Bool.false_eq_true, if_false]
  have hevents : run (step E) ⟨(startPass a node).analyzer, .asm i (startPass a node).ctx⟩
      (input.events.map .event) = some ⟨p.analyzer, .asm i p.ctx⟩ := events_run _ rfl hp
  have hasm : run (step E) ⟨a, .loop i⟩ (.enter :: input.events.map .event) =
      some ⟨p.analyzer, .asm i p.ctx⟩ := by
    rw [run_cons, henter, Option.bind_some, hevents]
  split at h
  · rename_i hc
    obtain ⟨q, hq', h⟩ := Option.bind_eq_some_iff.mp h
    have hchess : run (step E) ⟨p.analyzer, .chess i p.ctx⟩ (input.chessEvents.map .event) =
        some ⟨q.analyzer, .chess i q.ctx⟩ := events_run _ rfl hq'
    refine ⟨(.enter :: input.events.map .event) ++ (.asmDone input.success ::
      (input.chessEvents.map .event ++ [.chessDone, .leave])), fun docs hm => ?_, ?_⟩
    · simp at hm
    · rw [run_append, hasm, Option.bind_some, run_cons]
      simp only [step, if_pos hc, Option.bind_some]
      rw [run_append, hchess, Option.bind_some, run_cons]
      simp only [step, Option.bind_some, run_cons, h, Option.map_some, run_nil]
  · rename_i hc
    refine ⟨(.enter :: input.events.map .event) ++ [.asmDone input.success, .leave],
      fun docs hm => ?_, ?_⟩
    · simp at hm
    · rw [run_append, hasm, Option.bind_some, run_cons]
      simp only [step, if_neg hc, Option.bind_some, run_cons, h, Option.map_some, run_nil]

theorem run_frame {E : Env} {m m' : Machine} {ls : List Label} (hm : MachineOK E m)
    (hl : ∀ docs, Label.start docs ∉ ls) (h : run (step E) m ls = some m') :
    MachineOK E m' ∧ m'.analyzer.previous = m.analyzer.previous ∧
      m'.analyzer.analyzeQueue = m.analyzer.analyzeQueue := by
  induction ls generalizing m with
  | nil =>
      obtain rfl := Option.some.inj h
      exact ⟨hm, rfl, rfl⟩
  | cons l ls ih =>
      obtain ⟨u, hu, h⟩ := run_cons_some h
      obtain ⟨hp, hq⟩ := step_frame hm hu fun docs he => hl docs (he ▸ List.mem_cons_self)
      obtain ⟨hok, hp', hq'⟩ := ih (step_ok hm hu)
        (fun docs hd => hl docs (List.mem_cons_of_mem _ hd)) h
      exact ⟨hok, hp'.trans hp, hq'.trans hq⟩

/-- The main loop from its `i`-th entry on. -/
theorem analyzeLoop_run {E : Env} (queue : List SrcId) {a a' : Analyzer} {i : Nat}
    {inputs : List PassInput} (hm : MachineOK E ⟨a, .loop i⟩) (hq : a.analyzeQueue.drop i = queue)
    (h : analyzeLoop E queue inputs a = some a') :
    ∃ ls j, (∀ docs, Label.start docs ∉ ls) ∧
      run (step E) ⟨a, .loop i⟩ ls = some ⟨a', .loop j⟩ ∧ a'.analyzeQueue[j]? = none := by
  induction queue generalizing a i inputs with
  | nil =>
      cases inputs with
      | nil =>
          obtain rfl := Option.some.inj h
          exact ⟨[], i, fun docs hd => absurd hd List.not_mem_nil, rfl,
            List.getElem?_eq_none (List.drop_eq_nil_iff.mp hq)⟩
      | cons input inputs => cases h
  | cons node queue ih =>
      have hi : a.analyzeQueue[i]? = some node := by
        rw [← List.head?_drop, hq]
        rfl
      have hrest : a.analyzeQueue.drop (i + 1) = queue := by
        rw [← List.drop_drop, hq, List.drop_one, List.tail_cons]
      unfold analyzeLoop at h
      split at h
      · rename_i ha
        have hskip : step E ⟨a, .loop i⟩ .skip = some ⟨a, .loop (i + 1)⟩ := by
          simp only [step, hi, if_pos ha]
        obtain ⟨ls, j, hl, hr, hj⟩ := ih (step_ok hm hskip) hrest h
        refine ⟨.skip :: ls, j, fun docs hd => ?_, ?_, hj⟩
        · rcases List.mem_cons.mp hd with he | hd
          · cases he
          · exact hl docs hd
        · rw [run_cons, hskip, Option.bind_some, hr]
      · rename_i ha
        split at h
        · cases h
        · rename_i input inputs
          obtain ⟨b, hb, h⟩ := Option.bind_eq_some_iff.mp h
          obtain ⟨ls, hl, hr⟩ := runPass_run hi (by simpa using ha) hb
          obtain ⟨hok, -, hsame⟩ := run_frame hm hl hr
          obtain ⟨ls', j, hl', hr', hj⟩ := ih hok (by rw [hsame, hrest]) h
          refine ⟨ls ++ ls', j, fun docs hd => ?_, ?_, hj⟩
          · exact (List.mem_append.mp hd).elim (hl docs) (hl' docs)
          · rw [run_append, hr, Option.bind_some, hr']

/-- When `analyze` returns, it is a run of the machine from `idle` to `idle`. -/
theorem analyze_run {E : Env} {a a' : Analyzer} {input : RunInput}
    (hm : MachineOK E ⟨a, .idle⟩) (h : analyze E a input = some a') :
    ∃ ls, (∀ docs, Label.start docs ∉ ls) ∧
      run (step E) ⟨a, .idle⟩ (.start input.docs :: ls) = some ⟨a', .idle⟩ := by
  unfold analyze at h
  obtain ⟨b, hb, h⟩ := Option.bind_eq_some_iff.mp h
  obtain ⟨c, hc, rfl⟩ := Option.map_eq_some_iff.mp h
  have hstart : step E ⟨a, .idle⟩ (.start input.docs) = some ⟨b, .loop 0⟩ := by
    simp only [step, hb, Option.map_some]
  obtain ⟨ls, j, hl, hr, hj⟩ := analyzeLoop_run _ (step_ok hm hstart) rfl hc
  refine ⟨ls ++ [.finish], fun docs hd => ?_, ?_⟩
  · rcases List.mem_append.mp hd with hd | hd
    · exact hl docs hd
    · cases List.mem_singleton.mp hd
  · rw [run_cons, hstart, Option.bind_some, run_append, hr, Option.bind_some, run_cons]
    simp only [step, if_pos hj, Option.bind_some, run_nil]

end BuxnLs.Analysis
