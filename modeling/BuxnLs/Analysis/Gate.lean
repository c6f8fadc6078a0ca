/-
  The gate in front of buxn-chess. `rom_is_empty` is to say that the pass has put no byte yet,
  but the designated initialiser of the context leaves it false and no callback sets it
  (`passRun_flag`). So the flag is wrong from the first moment of every pass, and the gate only
  asks whether the assembler succeeded (`entersChess_iff`): a program without code is type
  checked as well.
-/
import BuxnLs.Analysis.Effect
import BuxnLs.Model.AsciiEnv
import BuxnLs.Model.Machine

namespace BuxnLs.Model

/-- A call of `buxn_asm_put_rom`. -/
def Event.putsRom : Event → Bool
  | .putRom _ _ => true
  | _ => false

end BuxnLs.Model

namespace BuxnLs.Analysis

open BuxnLs.Lib BuxnLs.Model

/-! ## The flag during a pass -/

theorem handleAnnotation_romIsEmpty {p p' : Pass} {call : AnnoCall}
    (h : handleAnnotation p call = some p') : p'.ctx.romIsEmpty = p.ctx.romIsEmpty := by
  obtain ⟨hc, -⟩ | ⟨id, f, enumScope, -, -, hc, -⟩ := handleAnnotation_cases h
  · rw [hc]
  · rw [hc]

theorem putSymNode_romIsEmpty {E : Env} {p p' : Pass} {addr : UInt16} {sym : AsmSym}
    (h : putSymNode E p addr sym = some p') : p'.ctx.romIsEmpty = p.ctx.romIsEmpty := by
  obtain ⟨-, hdef⟩ | ⟨-, refs, rfl⟩ := putSymNode_type_cases h
  · obtain ⟨file, -, -, rfl⟩ | ⟨-, file, a, node, hput⟩ := putDefinition_cases hdef
    · rfl
    · obtain ⟨enumScope, hctx⟩ := hput.ctx
      rw [hctx]
  · rfl

theorem asmPutSymbol_romIsEmpty {E : Env} {p p' : Pass} {addr : UInt16} {sym : AsmSym}
    {annos : List AnnoCall} (h : asmPutSymbol E p addr sym annos = some p') :
    p'.ctx.romIsEmpty = p.ctx.romIsEmpty := by
  obtain ⟨-, rfl⟩ | ⟨-, q, hq, hannos⟩ := asmPutSymbol_cases h
  · rfl
  · refine foldlM_inv (P := fun q : Pass => q.ctx.romIsEmpty = p.ctx.romIsEmpty)
      (s := { q with ctx := { q.ctx with previousSym := some sym } }) ?_ ?_ hannos
    · exact fun _ _ _ _ hq hs => (handleAnnotation_romIsEmpty hs).trans hq
    · have hput := putSymNode_romIsEmpty hq
      exact hput

/-- A callback clears the flag when it puts a byte, and leaves it alone when it does not. -/
theorem applyEvent_romIsEmpty {E : Env} {p p' : Pass} {ev : Event}
    (h : applyEvent E p ev = some p') :
    p'.ctx.romIsEmpty = (p.ctx.romIsEmpty && !ev.putsRom) := by
  cases ev with
  | fopen docs filename disk =>
      cases h
      unfold asmFopen Event.putsRom
      split <;> exact (Bool.and_true _).symm
  | putRom addr value =>
      cases h
      exact (Bool.and_false _).symm
  | putSymbol addr sym annos => exact (asmPutSymbol_romIsEmpty h).trans (Bool.and_true _).symm
  | report type r =>
      cases h
      exact (Bool.and_true _).symm
  | chessReport traceId type r =>
      cases h
      exact (Bool.and_true _).symm
  | chessDeo traceId s value port =>
      cases h
      exact (Bool.and_true _).symm

/-- Callbacks leave a pass in its phase, and the flag cleared once it is. -/
theorem passRun_flag {E : Env} {m m' : Machine} {evs : List Event} {i : Nat} {ctx : AsmCtx}
    (hphase : m.phase = .asm i ctx) (h : run (step E) m (evs.map .event) = some m') :
    ∃ ctx', m'.phase = .asm i ctx' ∧
      ctx'.romIsEmpty = (ctx.romIsEmpty && evs.all fun ev => !ev.putsRom) := by
  induction evs generalizing m ctx with
  | nil =>
      obtain rfl := Option.some.inj h
      exact ⟨ctx, hphase, (Bool.and_true _).symm⟩
  | cons ev evs ih =>
      rw [List.map_cons] at h
      obtain ⟨t, ht, h⟩ := run_cons_some h
      cases step_cases ht with
      | event hctx hev =>
          rw [hphase] at hctx
          obtain rfl := Option.some.inj hctx
          have hflag := applyEvent_romIsEmpty hev
          obtain ⟨ctx', hctx', hrest⟩ := ih (by rw [hphase]; rfl) h
          refine ⟨ctx', hctx', ?_⟩
          rw [hrest, hflag, List.all_cons, Bool.and_assoc]

/-! ## The gate -/

/-- Throughout a pass the flag says that no byte has been put so far. -/
def FlagExact (E : Env) (m : Machine) (evs : List Event) : Prop :=
  ∀ pre, pre <+: evs → ∀ t ctx, run (step E) m (pre.map .event) = some t →
    t.phase.passCtx = some ctx →
      (ctx.romIsEmpty = true ↔ ∀ ev ∈ pre, ev.putsRom = false)

/-- `buxn_chess_end` is what the pass goes on with. -/
def EntersChess (m : Machine) : Prop := ∃ i ctx, m.phase = .chess i ctx

def GateExact (m : Machine) (evs : List Event) (success : Bool) : Prop :=
  EntersChess m ↔ success = true ∧ ∃ ev ∈ evs, ev.putsRom = true

theorem enter_phase {E : Env} {m m' : Machine} (h : step E m .enter = some m') :
    ∃ i ctx, m'.phase = .asm i ctx ∧ ctx.romIsEmpty = false := by
  cases step_cases h with
  | enter _ _ _ => exact ⟨_, _, rfl, rfl⟩

/-- With the flag false at the start of a pass it is not exact there. -/
theorem not_flagExact {E : Env} {m : Machine} {i : Nat} {ctx : AsmCtx} (evs : List Event)
    (hphase : m.phase = .asm i ctx) (hfalse : ctx.romIsEmpty = false) : ¬ FlagExact E m evs := by
  intro hexact
  have hstart := (hexact [] List.nil_prefix m ctx rfl (by rw [hphase]; rfl)).mpr
    fun ev hev => absurd hev List.not_mem_nil
  rw [hfalse] at hstart
  cases hstart

/-- The assembler's success alone decides. -/
theorem entersChess_iff {E : Env} {m m' : Machine} {i : Nat} {ctx : AsmCtx} {success : Bool}
    (hphase : m.phase = .asm i ctx) (hflag : ctx.romIsEmpty = false)
    (h : step E m (.asmDone success) = some m') : EntersChess m' ↔ success = true := by
  cases step_cases h with
  | asmDone _ hs _ => exact ⟨fun _ => hs, fun _ => ⟨_, _, rfl⟩⟩
  | asmEnded hp hn =>
      obtain ⟨rfl, rfl⟩ : i = _ ∧ ctx = _ := by simpa [hphase] using hp
      constructor
      · rintro ⟨_, _, hchess⟩
        cases hchess
      · exact fun hs => absurd ⟨hs, hflag⟩ hn

/-- In every pass of every entry the flag fails to be exact, whatever is put; the gate is exact
    when the assembler fails or a byte is put, and not on a program without code. -/
theorem gate_pass {E : Env} {m m₁ m₂ m₃ : Machine} {evs : List Event} {success : Bool}
    (henter : step E m .enter = some m₁) (hevs : run (step E) m₁ (evs.map .event) = some m₂)
    (hdone : step E m₂ (.asmDone success) = some m₃) :
    ¬ (FlagExact E m₁ evs ∧ GateExact m₃ evs success) ∧
      (GateExact m₃ evs success ↔ success = false ∨ ∃ ev ∈ evs, ev.putsRom = true) := by
  obtain ⟨i, ctx, hphase, hfalse⟩ := enter_phase henter
  obtain ⟨ctx', hphase', hflag⟩ := passRun_flag hphase hevs
  rw [hfalse, Bool.false_and] at hflag
  refine ⟨fun hexact => not_flagExact evs hphase hfalse hexact.1, ?_⟩
  unfold GateExact
  rw [entersChess_iff hphase' hflag hdone]
  cases success with
  | false => simp
  | true => simp

/-- One open document `a`, entered. -/
def enteredOnce : Option (Machine × Machine) :=
  (run (step asciiEnv) Machine.init [.start (Table.empty.put (ascii "a") [])]).bind fun m =>
    (step asciiEnv m .enter).map fun m₁ => (m, m₁)

theorem enteredOnce_some {m m₁ : Machine} (h : enteredOnce = some (m, m₁)) :
    Reachable (step asciiEnv) Machine.init m ∧ step asciiEnv m .enter = some m₁ := by
  obtain ⟨m', hm, h⟩ := Option.bind_eq_some_iff.mp h
  obtain ⟨m₁', hm₁, h⟩ := Option.map_eq_some_iff.mp h
  obtain ⟨rfl, rfl⟩ : m' = m ∧ m₁' = m₁ := by simpa using h
  exact ⟨⟨_, hm⟩, hm₁⟩

/-- What follows `enteredOnce` when the assembler puts these bytes and succeeds. -/
def enteredPass (evs : List Event) : Option ((Machine × Machine) × Machine × Machine) :=
  enteredOnce.bind fun m => (run (step asciiEnv) m.2 (evs.map .event)).bind fun m₂ =>
    (step asciiEnv m₂ (.asmDone true)).map fun m₃ => (m, m₂, m₃)

theorem enteredPass_some {evs : List Event} (h : (enteredPass evs).isSome = true) :
    ∃ m m₁ m₂ m₃, Reachable (step asciiEnv) Machine.init m ∧ step asciiEnv m .enter = some m₁ ∧
      run (step asciiEnv) m₁ (evs.map .event) = some m₂ ∧
      step asciiEnv m₂ (.asmDone true) = some m₃ := by
  obtain ⟨out, h⟩ := Option.isSome_iff_exists.mp h
  obtain ⟨m, hm, h⟩ := Option.bind_eq_some_iff.mp h
  obtain ⟨m₂, hm₂, h⟩ := Option.bind_eq_some_iff.mp h
  obtain ⟨m₃, hm₃, -⟩ := Option.map_eq_some_iff.mp h
  obtain ⟨hreach, henter⟩ := enteredOnce_some hm
  exact ⟨m.1, m.2, m₂, m₃, hreach, henter, hm₂, hm₃⟩

theorem gate_pass_byte :
    ∃ m m₁ m₂ m₃, Reachable (step asciiEnv) Machine.init m ∧ step asciiEnv m .enter = some m₁ ∧
      run (step asciiEnv) m₁ [.event (.putRom 0x100 0x80)] = some m₂ ∧
      step asciiEnv m₂ (.asmDone true) = some m₃ ∧
      ¬ FlagExact asciiEnv m₁ [.putRom 0x100 0x80] ∧ GateExact m₃ [.putRom 0x100 0x80] true := by
  have hpass : (enteredPass [.putRom 0x100 0x80]).isSome = true := by decide
  obtain ⟨m, m₁, m₂, m₃, hreach, henter, hevs, hdone⟩ := enteredPass_some hpass
  have h := gate_pass henter hevs hdone
  have hgate : GateExact m₃ [.putRom 0x100 0x80] true :=
    h.2.mpr (Or.inr ⟨.putRom 0x100 0x80, List.mem_singleton_self _, rfl⟩)
  exact ⟨m, m₁, m₂, m₃, hreach, henter, hevs, hdone, fun hflag => h.1 ⟨hflag, hgate⟩, hgate⟩

/-- An empty program is type checked, and its flag is false although nothing has been put. -/
theorem gate_pass_fails :
    ∃ m m₁ m₂ m₃, Reachable (step asciiEnv) Machine.init m ∧ step asciiEnv m .enter = some m₁ ∧
      run (step asciiEnv) m₁ [] = some m₂ ∧ step asciiEnv m₂ (.asmDone true) = some m₃ ∧
      ¬ FlagExact asciiEnv m₁ [] ∧ ¬ GateExact m₃ [] true := by
  have hpass : (enteredPass []).isSome = true := by decide
  obtain ⟨m, m₁, m₂, m₃, hreach, henter, hevs, hdone⟩ := enteredPass_some hpass
  obtain ⟨i, ctx, hphase, hfalse⟩ := enter_phase henter
  obtain ⟨ctx', hphase', hflag⟩ := passRun_flag hphase hevs
  rw [hfalse, Bool.false_and] at hflag
  refine ⟨m, m₁, m₂, m₃, hreach, henter, hevs, hdone, not_flagExact [] hphase hfalse,
    fun hgate => ?_⟩
  obtain ⟨-, ev, hev, -⟩ := hgate.mp ((entersChess_iff hphase' hflag hdone).mpr rfl)
  exact absurd hev List.not_mem_nil

end BuxnLs.Analysis
