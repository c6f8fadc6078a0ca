/-
  Error tolerance. `ListStep` says what each step of the machine does to the lists and marks of
  files, `Traced` where every listed node comes from. Over one run `collect (observe f)` records
  what matters for file `f`: the bytes of the definitions it receives and, at each pass end,
  whether it is in error. The number of copies of an old symbol is a fold over that record
  (`tally`), so how often a symbol is carried is a fact about the record (`tally_iff`).
-/
import BuxnLs.Analysis.Listing
import BuxnLs.Analysis.Whole
import BuxnLs.Model.AsciiEnv

namespace BuxnLs.Analysis

open BuxnLs.Lib BuxnLs.Model Relation

/-! ## Steps of the machine on the lists -/

/-- What a step other than `start` does to lists and marks. -/
inductive ListStep (E : Env) (m m' : Machine) : Label → Prop where
  | quiet {l} : (∀ ev, l ≠ .event ev) → l ≠ .leave → m'.analyzer.current = m.analyzer.current →
      m'.analyzer.files = m.analyzer.files → (inPass m.phase → inPass m'.phase) →
      ListStep E m m' l
  | emit {ctx ev sym} : m.phase.passCtx = some ctx → emittedSym ctx ev = some sym →
      ListsNew E m.analyzer ctx.entryNode sym m'.analyzer.current →
      MarksStep (notedBy ctx ev) m.analyzer m'.analyzer → inPass m'.phase →
      ListStep E m m' (.event ev)
  | event {ctx ev} : m.phase.passCtx = some ctx → emittedSym ctx ev = none →
      SameLists m.analyzer.current m'.analyzer.current →
      MarksStep (notedBy ctx ev) m.analyzer m'.analyzer → inPass m'.phase →
      ListStep E m m' (.event ev)
  | leave : (∀ f, coresOf m'.analyzer.current f =
        (carriedInto m.analyzer f).reverse ++ coresOf m.analyzer.current f) →
      (∀ f, lastByteOf m'.analyzer f = lastByteOf m.analyzer f ∧
        erred m'.analyzer f = erred m.analyzer f) →
      (Opened m.analyzer → Opened m'.analyzer) → ListStep E m m' .leave

theorem step_lists {E : Env} {m m' : Machine} {l : Label} (hm : MachineOK E m)
    (h : step E m l = some m') (hl : ∀ docs, l ≠ .start docs) : ListStep E m m' l := by
  cases step_cases h with
  | start _ _ => exact absurd rfl (hl _)
  | skip hp _ _ =>
      exact .quiet (fun _ he => by cases he) (fun he => by cases he) rfl rfl
        fun hin => by rw [hp] at hin; exact hin.elim
  | enter _ _ _ =>
      exact .quiet (fun _ he => by cases he) (fun he => by cases he) rfl rfl fun _ => trivial
  | @event ctx ev p hctx hev =>
      have hin : inPass (m.phase.withCtx p.ctx) := inPass_of_passCtx (inPass_withCtx hctx)
      obtain ⟨sym, he, hnew⟩ | ⟨he, hsame⟩ := applyEvent_coresOf (hm.pass hctx) hev
      · exact .emit hctx he hnew (applyEvent_marks hev) hin
      · exact .event hctx he hsame (applyEvent_marks hev) hin
  | asmDone _ _ _ =>
      exact .quiet (fun _ he => by cases he) (fun he => by cases he) rfl rfl fun _ => trivial
  | asmEnded _ _ =>
      exact .quiet (fun _ he => by cases he) (fun he => by cases he) rfl rfl fun _ => trivial
  | chessDone _ =>
      exact .quiet (fun _ he => by cases he) (fun he => by cases he) rfl rfl fun _ => trivial
  | leave hp ha =>
      exact .leave (leavePass_coresOf hm.current (hm.listed (hp ▸ trivial)) ha)
        (leavePass_marks ha).1 (leavePass_marks ha).2
  | finish hp _ =>
      exact .quiet (fun _ he => by cases he) (fun he => by cases he) rfl rfl
        fun hin => by rw [hp] at hin; exact hin.elim

/-- The state a run starts from lists nothing and marks nothing. -/
theorem start_lists {E : Env} {m m' : Machine} {docs : Docs}
    (h : step E m (.start docs) = some m') :
    m'.analyzer.previous = m.analyzer.current ∧ ∀ f, coresOf m'.analyzer.current f = [] ∧
      m'.analyzer.files.find? f = none ∧ m'.phase = .loop 0 := by
  cases step_cases h with
  | start _ ha =>
      obtain ⟨hb, -, hfiles, -⟩ := analyzeBegin_begun ha
      refine ⟨hb.previous, fun f => ⟨?_, by rw [hfiles]; rfl, rfl⟩⟩
      unfold coresOf listed AnalyzerCtx.nodes
      rw [hb.syms]
      simp

theorem marks_of_closed {a : Analyzer} {f : Str} (h : a.files.find? f = none) :
    lastByteOf a f = 0 ∧ erred a f = false := by
  unfold lastByteOf erred
  rw [h]
  exact ⟨rfl, rfl⟩

theorem marks_of_files {a a' : Analyzer} (h : a'.files = a.files) (f : Str) :
    lastByteOf a' f = lastByteOf a f ∧ erred a' f = erred a f := by
  unfold lastByteOf erred
  rw [h]
  exact ⟨rfl, rfl⟩

/-- The byte of a definition that is listed is noted. -/
theorem notedBy_of_emittedSym {ctx : AsmCtx} {ev : Event} {sym : AsmSym}
    (h : emittedSym ctx ev = some sym) :
    notedBy ctx ev = some (sym.region.filename.chars, sym.region.range.start.byte) := by
  cases ev with
  | putSymbol addr s annos =>
      simp only [emittedSym] at h
      split at h
      · rename_i he
        cases h
        have hn : notes ctx sym = true := by
          simp only [emits, decide_eq_true_eq] at he
          simp only [notes, decide_eq_true_eq]
          exact ⟨he.1, he.2.1⟩
        simp only [notedBy, if_pos hn]
      · cases h
  | fopen docs filename disk => cases h
  | report type r => cases h
  | putRom addr value => cases h
  | chessReport traceId type r => cases h
  | chessDeo traceId s value port => cases h

/-! ## Where listed nodes come from -/

/-- `n` is a copy of the old definition `s` of the file `f`. -/
def CopyOf (previous : AnalyzerCtx) (f : Str) (s : SymId) (n : SymNode) : Prop :=
  s ∈ definitionsOf previous f ∧ ∃ old : SymNode, previous.syms[s]? = some old ∧
    n = { old with source := n.source, origin := .carried s }

/-- A listed node was emitted, and its byte is noted, or it is a copy of an old definition. -/
def Traced (a : Analyzer) : Prop :=
  ∀ f, ∀ n ∈ coresOf a.current f,
    (∃ entry, n.origin = .emitted entry ∧ n.byteOffset ≤ lastByteOf a f) ∨
      ∃ s, CopyOf a.previous f s n

theorem carriedInto_copyOf {a : Analyzer} {f : Str} {n : SymNode} (h : n ∈ carriedInto a f) :
    lastByteOf a f < n.byteOffset ∧ ∃ s, CopyOf a.previous f s n := by
  unfold carriedInto at h
  unfold lastByteOf
  cases hfile : a.files.find? f with
  | none =>
      rw [hfile] at h
      exact absurd h List.not_mem_nil
  | some file =>
      rw [hfile, Option.elim_some] at h
      rw [Option.elim_some]
      unfold carriedOf at h
      split at h
      · split at h
        · rename_i src source hsrc _
          obtain ⟨s, hs, old, hold, hlt, rfl⟩ := mem_carriedNodes_iff.mp h
          have hmem : s ∈ definitionsOf a.previous f := by
            unfold definitionsOf
            rw [hsrc]
            exact hs
          exact ⟨hlt, s, hmem, old, hold, rfl⟩
        · exact absurd h List.not_mem_nil
      · exact absurd h List.not_mem_nil

theorem MarksStep.le {noted : Option (Str × Nat)} {a a' : Analyzer} (h : MarksStep noted a a')
    (f : Str) : lastByteOf a f ≤ lastByteOf a' f := by
  rw [h.last f]
  cases noted.filter fun e => e.1 = f with
  | none => exact Nat.le_refl _
  | some e => exact Nat.le_max_left _ _

theorem MarksStep.noted_le {f : Str} {byte : Nat} {a a' : Analyzer}
    (h : MarksStep (some (f, byte)) a a') : byte ≤ lastByteOf a' f := by
  rw [h.last f, Option.filter_some, if_pos (by simp)]
  exact Nat.le_max_right _ _

theorem Traced.of_same {a a' : Analyzer} (h : Traced a)
    (hc : ∀ f, coresOf a'.current f = coresOf a.current f) (hp : a'.previous = a.previous)
    (hl : ∀ f, lastByteOf a f ≤ lastByteOf a' f) : Traced a' := by
  intro f n hn
  rcases h f n (hc f ▸ hn) with ⟨entry, ho, hb⟩ | hcopy
  · exact Or.inl ⟨entry, ho, hb.trans (hl f)⟩
  · exact Or.inr (hp ▸ hcopy)

theorem step_traced {E : Env} {m m' : Machine} {l : Label} (hm : MachineOK E m)
    (ht : Traced m.analyzer) (h : step E m l = some m') : Traced m'.analyzer := by
  by_cases hl : ∃ docs, l = .start docs
  · obtain ⟨docs, rfl⟩ := hl
    intro f n hn
    rw [((start_lists h).2 f).1] at hn
    exact absurd hn List.not_mem_nil
  · have hl : ∀ docs, l ≠ .start docs := fun docs he => hl ⟨docs, he⟩
    obtain ⟨hprev, -⟩ := step_frame hm h hl
    cases step_lists hm h hl with
    | quiet _ _ hc hf _ =>
        exact ht.of_same (fun f => by rw [hc]) hprev fun f => (marks_of_files hf f).1.ge
    | event _ _ hsame hmarks _ => exact ht.of_same hsame hprev fun f => hmarks.le f
    | @emit ctx ev sym _ he hnew hmarks _ =>
        obtain ⟨node, hnode, hcores⟩ := hnew
        rw [notedBy_of_emittedSym he] at hmarks
        intro f n hn
        have hold : n ∈ coresOf m.analyzer.current f →
            (∃ entry, n.origin = .emitted entry ∧ n.byteOffset ≤ lastByteOf m'.analyzer f) ∨
              ∃ s, CopyOf m'.analyzer.previous f s n := by
          intro hmem
          rw [hprev]
          exact (ht f n hmem).imp_left fun ⟨entry, ho, hb⟩ => ⟨entry, ho, hb.trans (hmarks.le f)⟩
        rw [hcores f] at hn
        split at hn
        · rename_i hf
          rcases List.mem_cons.mp hn with rfl | hn
          · exact Or.inl ⟨_, hnode.origin, hnode.byteOffset ▸ hf ▸ hmarks.noted_le⟩
          · exact hold hn
        · exact hold hn
    | leave hcores hmarks _ =>
        intro f n hn
        rw [hcores f] at hn
        rw [(hmarks f).1, hprev]
        rcases List.mem_append.mp hn with hn | hn
        · exact Or.inr (carriedInto_copyOf (List.mem_reverse.mp hn)).2
        · exact ht f n hn

theorem reachable_traced {E : Env} {m : Machine} (h : Reachable (step E) Machine.init m) :
    Traced m.analyzer := by
  refine (h.inv (P := fun m => MachineOK E m ∧ Traced m.analyzer) ⟨machineOK_init E, ?_⟩
    fun m l m' hm hs => ⟨step_ok hm.1 hs, step_traced hm.1 hm.2 hs⟩).2
  intro f n hn
  exact absurd hn List.not_mem_nil

/-! ## The record of a file -/

/-- What matters for the old symbols of a file. -/
inductive Obs where
  | symbol (byte : Nat)
  | passEnd (error : Bool)
deriving DecidableEq

/-- What a step records for the file `f`: each definition that the assembler delivers for it
    (a repeat of the previous symbol is no new one), and whether it is in error at a pass end. -/
def observe (f : Str) (m : Machine) : Label → List Obs
  | .event ev =>
    match m.phase.passCtx.bind fun ctx => notedBy ctx ev with
    | some (file, byte) => if file = f then [.symbol byte] else []
    | none => []
  | .leave => [.passEnd (erred m.analyzer f)]
  | _ => []

/-- The bytes of the definitions in a record. -/
def symbolsOf (obs : List Obs) : List Nat :=
  obs.filterMap fun
    | .symbol byte => some byte
    | .passEnd _ => none

/-- `last_symbol_byte` and the number of copies of an old symbol at `byte`. -/
def tally (byte : Nat) (t : Nat × Nat) : Obs → Nat × Nat
  | .symbol b => (max t.1 b, t.2)
  | .passEnd e => (t.1, if e = true ∧ t.1 < byte then t.2 + 1 else t.2)

def tallyOf (byte : Nat) (obs : List Obs) : Nat × Nat := obs.foldl (tally byte) (0, 0)

theorem tallyOf_concat (byte : Nat) (obs : List Obs) (o : Obs) :
    tallyOf byte (obs ++ [o]) = tally byte (tallyOf byte obs) o := by
  unfold tallyOf
  rw [List.foldl_append, List.foldl_cons, List.foldl_nil]

theorem symbolsOf_concat (obs : List Obs) (o : Obs) :
    symbolsOf (obs ++ [o]) = symbolsOf obs ++ symbolsOf [o] :=
  List.filterMap_append

/-- `last_symbol_byte` is zero before the first symbol. -/
theorem le_last_iff (byte : Nat) (obs : List Obs) :
    byte ≤ (tallyOf byte obs).1 ↔ byte = 0 ∨ ∃ b ∈ symbolsOf obs, byte ≤ b := by
  induction obs using List.reverseRecOn with
  | nil => simp [tallyOf, symbolsOf]
  | append_singleton obs o ih =>
      rw [tallyOf_concat, symbolsOf_concat]
      cases o with
      | symbol b =>
          have hle : byte ≤ max (tallyOf byte obs).1 b ↔
              byte ≤ (tallyOf byte obs).1 ∨ byte ≤ b := by
            omega
          show byte ≤ max (tallyOf byte obs).1 b ↔ _
          rw [hle, ih]
          simp [symbolsOf, or_and_right, exists_or, or_assoc]
      | passEnd e =>
          show byte ≤ (tallyOf byte obs).1 ↔ _
          rw [ih]
          simp [symbolsOf]

/-- Behind every symbol and not at zero, a symbol is carried at every pass end in error. -/
theorem copies_eq_count {byte : Nat} (h0 : 0 < byte) (obs : List Obs)
    (hafter : ∀ b ∈ symbolsOf obs, b < byte) :
    (tallyOf byte obs).2 = obs.count (.passEnd true) := by
  induction obs using List.reverseRecOn with
  | nil => rfl
  | append_singleton obs o ih =>
      rw [symbolsOf_concat] at hafter
      have hold : ∀ b ∈ symbolsOf obs, b < byte :=
        fun b hb => hafter b (List.mem_append_left _ hb)
      have hlast : (tallyOf byte obs).1 < byte := by
        by_contra hc
        rcases (le_last_iff byte obs).mp (Nat.le_of_not_lt hc) with hz | ⟨b, hb, hle⟩
        · omega
        · exact absurd (hold b hb) (Nat.not_lt.mpr hle)
      rw [tallyOf_concat, List.count_append]
      cases o with
      | symbol b => exact ih hold
      | passEnd e =>
          cases e with
          | false => exact ih hold
          | true =>
              have hstep : (tally byte (tallyOf byte obs) (.passEnd true)).2 =
                  (tallyOf byte obs).2 + 1 := if_pos ⟨rfl, hlast⟩
              rw [hstep, ih hold]
              rfl

/-- A symbol is never carried when every pass end in error comes behind it. -/
theorem copies_eq_zero_iff (byte : Nat) (obs : List Obs) :
    (tallyOf byte obs).2 = 0 ↔
      ∀ before, before ++ [.passEnd true] <+: obs → byte ≤ (tallyOf byte before).1 := by
  induction obs using List.reverseRecOn with
  | nil =>
      refine ⟨fun _ before h => ?_, fun _ => rfl⟩
      exact absurd (List.prefix_nil.mp h) (by simp)
  | append_singleton obs o ih =>
      rw [tallyOf_concat]
      -- the prefixes that end here are those of `obs` and the whole list
      have hsplit : ∀ before : List Obs, before ++ [.passEnd true] <+: obs ++ [o] ↔
          (before = obs ∧ o = .passEnd true) ∨ before ++ [.passEnd true] <+: obs := by
        intro before
        rw [List.prefix_concat_iff]
        simp only [List.append_singleton_inj, eq_comm (a := Obs.passEnd true)]
      simp only [hsplit]
      have hiff : (tally byte (tallyOf byte obs) o).2 = 0 ↔
          (tallyOf byte obs).2 = 0 ∧ (o = .passEnd true → byte ≤ (tallyOf byte obs).1) := by
        cases o with
        | symbol b => simp [tally]
        | passEnd e =>
            show (if e = true ∧ (tallyOf byte obs).1 < byte then _ else _) = 0 ↔ _
            split
            · rename_i hc
              simp [hc.1, hc.2]
            · rename_i hc
              simp only [Obs.passEnd.injEq]
              exact ⟨fun h => ⟨h, fun he => Nat.le_of_not_lt fun hlt => hc ⟨he, hlt⟩⟩, And.left⟩
      rw [hiff, ih]
      constructor
      · rintro ⟨hall, hlast⟩ before (⟨rfl, ho⟩ | hb)
        · exact hlast ho
        · exact hall before hb
      · intro hall
        exact ⟨fun before hb => hall before (Or.inr hb), fun ho => hall obs (Or.inl ⟨rfl, ho⟩)⟩

/-- How often the old symbol at `byte` should be carried. -/
def wanted (byte : Nat) (obs : List Obs) : Nat :=
  if ∀ b ∈ symbolsOf obs, b < byte then 1 else 0

/-- When it is carried that often. Behind every symbol of the run, it must not lie at zero, and
    one pass at most ends with the file in error. Else, unless it lies at zero, a symbol at or
    behind it comes before each pass end that finds the file in error. -/
def CarriesRight (byte : Nat) (obs : List Obs) : Prop :=
  if ∀ b ∈ symbolsOf obs, b < byte then 0 < byte ∧ obs.count (.passEnd true) ≤ 1
  else byte = 0 ∨ ∀ before, before ++ [.passEnd true] <+: obs → ∃ b ∈ symbolsOf before, byte ≤ b

theorem tally_iff {byte : Nat} {obs : List Obs} (herr : Obs.passEnd true ∈ obs) :
    (tallyOf byte obs).2 = wanted byte obs ↔ CarriesRight byte obs := by
  unfold wanted CarriesRight
  by_cases hafter : ∀ b ∈ symbolsOf obs, b < byte
  · rw [if_pos hafter, if_pos hafter]
    rcases Nat.eq_zero_or_pos byte with rfl | h0
    · have hzero : (tallyOf 0 obs).2 = 0 :=
        (copies_eq_zero_iff 0 obs).mpr fun before _ => Nat.zero_le _
      rw [hzero]
      simp
    · have hpos : 0 < obs.count (.passEnd true) := List.count_pos_iff.mpr herr
      rw [copies_eq_count h0 obs hafter]
      omega
  · rw [if_neg hafter, if_neg hafter, copies_eq_zero_iff]
    simp only [le_last_iff]
    constructor
    · intro h
      by_cases h0 : byte = 0
      · exact Or.inl h0
      · exact Or.inr fun before hb => (h before hb).resolve_left h0
    · rintro (h0 | h) before hb
      · exact Or.inl h0
      · exact Or.inr (h before hb)

/-! ## Copies -/

/-- The copies of the old definition `s` in the list of a file. -/
def copiesOf (c : AnalyzerCtx) (f : Str) (s : SymId) : List SymNode :=
  (listed c f).filter fun n => n.origin = .carried s

theorem copiesOf_eq (c : AnalyzerCtx) (f : Str) (s : SymId) :
    copiesOf c f s = (coresOf c f).filter fun n => n.origin = .carried s := by
  unfold copiesOf coresOf
  induction listed c f with
  | nil => rfl
  | cons n ns ih =>
      rw [List.map_cons, List.filter_cons, List.filter_cons, core_origin, ih]
      split
      · rename_i h
        rw [core_of_carried (of_decide_eq_true h)]
      · rfl

theorem copiesOf_length (c : AnalyzerCtx) (f : Str) (s : SymId) :
    (copiesOf c f s).length = (coresOf c f).countP fun n => n.origin = .carried s := by
  rw [copiesOf_eq, List.countP_eq_length_filter]

theorem carriedNodes_countP {previous : AnalyzerCtx} {source : SrcId} {last : Nat}
    {ids : List SymId} (hnd : ids.Nodup) {s : SymId} (hs : s ∈ ids) {old : SymNode}
    (hold : previous.syms[s]? = some old) :
    (carriedNodes previous source last ids).countP (fun n => n.origin = .carried s) =
      if last < old.byteOffset then 1 else 0 := by
  unfold carriedNodes
  rw [List.countP_filterMap]
  -- only `s` itself gives a copy of `s`
  have hone : ∀ id, (((previous.syms[id]?).bind fun n =>
      if n.byteOffset ≤ last then none
      else some { n with source := source, origin := .carried id }).map
        fun n => decide (n.origin = .carried s)).getD false =
      decide (id = s ∧ last < old.byteOffset) := by
    intro id
    by_cases hid : id = s
    · subst hid
      rw [hold, Option.bind_some]
      by_cases hle : old.byteOffset ≤ last
      · rw [if_pos hle]
        simp [Nat.not_lt.mpr hle]
      · rw [if_neg hle]
        simp [Nat.lt_of_not_le hle]
    · cases previous.syms[id]? with
      | none => simp [hid]
      | some n =>
          rw [Option.bind_some]
          split <;> simp [hid]
  simp only [hone]
  by_cases hlt : last < old.byteOffset
  · rw [if_pos hlt]
    have hcount : ids.countP (fun id => decide (id = s ∧ last < old.byteOffset)) = ids.count s := by
      unfold List.count
      congr 1
      funext id
      by_cases h : id = s <;> simp [h, hlt]
    rw [hcount, hnd.count, if_pos hs]
  · rw [if_neg hlt]
    simp [hlt]

/-- A pass end carries the old definition `s` once, or not at all. -/
theorem carriedInto_countP {E : Env} {a : Analyzer} (hw : CtxWF E a.previous) (ho : Opened a)
    {f : Str} {s : SymId} {old : SymNode} (hs : s ∈ definitionsOf a.previous f)
    (hold : a.previous.syms[s]? = some old) :
    (carriedInto a f).countP (fun n => n.origin = .carried s) =
      if erred a f = true ∧ lastByteOf a f < old.byteOffset then 1 else 0 := by
  unfold carriedInto erred lastByteOf
  cases hfile : a.files.find? f with
  | none => rfl
  | some file =>
      obtain ⟨source, hsource⟩ := Option.isSome_iff_exists.mp (ho f (by rw [hfile]; rfl))
      have hnd := (linked_definitionsOf hw f).1
      unfold definitionsOf at hs hnd
      rw [Option.elim_some, Option.elim_some, Option.elim_some]
      unfold carriedOf
      cases hsrc : a.previous.srcOf f with
      | none =>
          rw [hsrc] at hs
          exact absurd hs List.not_mem_nil
      | some src =>
          rw [hsrc, Option.elim_some] at hs hnd
          by_cases he : file.hasError = true
          · rw [if_pos he, hsource]
            dsimp only
            rw [carriedNodes_countP hnd hs hold]
            simp [he]
          · rw [if_neg he]
            simp [he]

/-! ## One run -/

/-- What a run and its record have to do with each other: `previous` is what the run found. -/
structure CarryInv (E : Env) (previous : AnalyzerCtx) (f : Str) (s : SymId) (byte : Nat)
    (m : Machine) (obs : List Obs) : Prop where
  ok : MachineOK E m
  previous : m.analyzer.previous = previous
  opened : Opened m.analyzer
  last : lastByteOf m.analyzer f = (tallyOf byte obs).1
  copies : (copiesOf m.analyzer.current f s).length = (tallyOf byte obs).2
  error : erred m.analyzer f = true → inPass m.phase ∨ Obs.passEnd true ∈ obs

theorem start_carryInv {E : Env} {m m' : Machine} {docs : Docs} (hm : MachineOK E m)
    (h : step E m (.start docs) = some m') (f : Str) (s : SymId) (byte : Nat) :
    CarryInv E m.analyzer.current f s byte m' [] := by
  obtain ⟨hprev, hstart⟩ := start_lists h
  obtain ⟨hcores, hclosed, -⟩ := hstart f
  obtain ⟨hlast, herr⟩ := marks_of_closed hclosed
  refine ⟨step_ok hm h, hprev, fun g hg => ?_, hlast, ?_, fun he => ?_⟩
  · rw [((hstart g).2).1] at hg
    cases hg
  · rw [copiesOf_length, hcores]
    rfl
  · rw [herr] at he
    cases he

/-- The record of a callback: the last symbol byte moves with it, the copies do not. -/
theorem MarksStep.tally {f : Str} {a a' : Analyzer} {ctx : AsmCtx} {ev : Event}
    (h : MarksStep (notedBy ctx ev) a a') (byte : Nat) {m : Machine} {obs : List Obs}
    (hctx : m.phase.passCtx = some ctx) (hlast : lastByteOf a f = (tallyOf byte obs).1) :
    lastByteOf a' f = (tallyOf byte (obs ++ observe f m (.event ev))).1 ∧
      (tallyOf byte (obs ++ observe f m (.event ev))).2 = (tallyOf byte obs).2 := by
  have hl := h.last f
  have hobs : observe f m (.event ev) = match notedBy ctx ev with
      | some (file, byte) => if file = f then [.symbol byte] else []
      | none => [] := by
    simp only [observe, hctx, Option.bind_some]
  rw [hobs]
  cases hn : notedBy ctx ev with
  | none =>
      rw [hn] at hl
      dsimp only
      rw [List.append_nil]
      exact ⟨hl.trans hlast, rfl⟩
  | some e =>
      obtain ⟨file, b⟩ := e
      rw [hn, Option.filter_some] at hl
      dsimp only at hl ⊢
      by_cases hf : file = f
      · rw [if_pos (by simpa using hf), Option.elim_some, hlast] at hl
        rw [if_pos hf, tallyOf_concat]
        exact ⟨hl, rfl⟩
      · rw [if_neg (by simpa using hf)] at hl
        rw [if_neg hf, List.append_nil]
        exact ⟨hl.trans hlast, rfl⟩

theorem step_carryInv {E : Env} {previous : AnalyzerCtx} {f : Str} {s : SymId} {old : SymNode}
    (hs : s ∈ definitionsOf previous f) (hold : previous.syms[s]? = some old) {m m' : Machine}
    {l : Label} {obs : List Obs} (hinv : CarryInv E previous f s old.byteOffset m obs)
    (hl : ∀ docs, l ≠ .start docs) (h : step E m l = some m') :
    CarryInv E previous f s old.byteOffset m' (obs ++ observe f m l) := by
  obtain ⟨hm, hprev, hopen, hlast, hcopies, herr⟩ := hinv
  have hprev' := (step_frame hm h hl).1.trans hprev
  have hlength := fun c => copiesOf_length c f s
  rw [hlength] at hcopies
  cases step_lists hm h hl with
  | quiet hev hle hc hf hin =>
      have hobs : observe f m l = [] := by
        cases l with
        | event ev => exact absurd rfl (hev ev)
        | leave => exact absurd rfl hle
        | start docs => exact absurd rfl (hl docs)
        | skip => rfl
        | enter => rfl
        | asmDone success => rfl
        | chessDone => rfl
        | finish => rfl
      rw [hobs, List.append_nil]
      refine ⟨step_ok hm h, hprev', hopen.of_keys (fun g => by rw [hf]) (by rw [hc]),
        (marks_of_files hf f).1.trans hlast, by rw [hlength, hc, hcopies], fun he => ?_⟩
      rw [(marks_of_files hf f).2] at he
      exact (herr he).imp_left hin
  | event hctx _ hsame hmarks hin =>
      obtain ⟨ht, hn⟩ := hmarks.tally old.byteOffset hctx hlast
      exact ⟨step_ok hm h, hprev', hmarks.opened hopen, ht, by rw [hlength, hsame, hcopies, hn],
        fun _ => Or.inl hin⟩
  | emit hctx _ hnew hmarks hin =>
      obtain ⟨ht, hn⟩ := hmarks.tally old.byteOffset hctx hlast
      obtain ⟨n, hnode, hcores⟩ := hnew
      refine ⟨step_ok hm h, hprev', hmarks.opened hopen, ht, ?_, fun _ => Or.inl hin⟩
      rw [hlength, hcores, hn, ← hcopies]
      split
      · rw [List.countP_cons_of_neg]
        simp [hnode.origin]
      · rfl
  | leave hcores hmarks hopened =>
      have hobs : observe f m .leave = [.passEnd (erred m.analyzer f)] := rfl
      have hpass : ∀ byte t e, (tally byte t (.passEnd e)).2 =
          if e = true ∧ t.1 < byte then t.2 + 1 else t.2 := fun _ _ _ => rfl
      have hcount := carriedInto_countP (hprev ▸ hm.previous : CtxWF E m.analyzer.previous) hopen
        (hprev.symm ▸ hs) (hprev.symm ▸ hold)
      rw [hobs]
      refine ⟨step_ok hm h, hprev', hopened hopen, ?_, ?_, fun he => ?_⟩
      · rw [tallyOf_concat]
        exact (hmarks f).1.trans hlast
      · rw [hlength, hcores, List.countP_append, List.countP_reverse, hcount, hcopies, hlast,
          tallyOf_concat, hpass]
        split <;> omega
      · rw [(hmarks f).2] at he
        rw [he]
        exact Or.inr (List.mem_append_right _ List.mem_cons_self)

/-- The old symbol is carried as often as wanted, and each copy has all of its data. -/
structure CarriedOnce (obs : List Obs) (old : SymNode) (copies : List SymNode) : Prop where
  number : copies.length = wanted old.byteOffset obs
  kept : ∀ n ∈ copies, n = { old with source := n.source, origin := n.origin }

theorem copiesOf_kept {a : Analyzer} (ht : Traced a) {f : Str} {s : SymId} {old : SymNode}
    (hold : a.previous.syms[s]? = some old) :
    ∀ n ∈ copiesOf a.current f s, n = { old with source := n.source, origin := n.origin } := by
  intro n hn
  rw [copiesOf_eq] at hn
  obtain ⟨hmem, ho⟩ := List.mem_filter.mp hn
  have ho : n.origin = .carried s := of_decide_eq_true ho
  rcases ht f n hmem with ⟨entry, he, -⟩ | ⟨s', -, old', hold', he⟩
  · rw [he] at ho
    cases ho
  · have hs : s' = s := by
      rw [he] at ho
      exact Origin.carried.inj ho
    subst hs
    obtain rfl : old' = old := Option.some.inj (hold'.symm.trans hold)
    rw [ho]
    exact he

/-- Over one run from any reachable state, an old symbol of a file in error is carried as it
    should exactly when the record of the file allows it. -/
theorem carried_once_iff {E : Env} {m m' : Machine} {docs : Docs} {ls : List Label} {f : Str}
    {s : SymId} {old : SymNode} (hm : Reachable (step E) Machine.init m)
    (hls : ∀ docs, Label.start docs ∉ ls)
    (h : run (step E) m (.start docs :: ls) = some m') (hidle : m'.phase = .idle)
    (herr : erred m'.analyzer f = true) (hs : s ∈ definitionsOf m'.analyzer.previous f)
    (hold : m'.analyzer.previous.syms[s]? = some old) :
    CarriedOnce (collect (step E) (observe f) m (.start docs :: ls)) old
        (copiesOf m'.analyzer.current f s) ↔
      CarriesRight old.byteOffset (collect (step E) (observe f) m (.start docs :: ls)) := by
  have htraced := reachable_traced (hm.run h)
  have hok := reachable_ok hm
  obtain ⟨m₁, hstart, hrun⟩ := run_cons_some h
  have hm₁ := start_carryInv hok hstart f s old.byteOffset
  have hnostart : Meets (step E) (fun _ l => ∀ docs, l ≠ .start docs) m₁ ls :=
    fun before l hl _ _ docs he => hls docs (hl.subset (by simp [he]))
  -- the run does not touch the previous context, so `s` is a definition of it all along
  have hprev := (run_frame (step_ok hok hstart) hls hrun).2.1.trans hm₁.previous
  rw [hprev] at hs
  have hold₁ : m.analyzer.current.syms[s]? = some old := hprev ▸ hold
  have hinv := collect_inv (P := CarryInv E m.analyzer.current f s old.byteOffset)
    (fun _ _ _ _ hinv hl hs' => step_carryInv hs hold₁ hinv hl hs') hm₁ hnostart hrun
  have hobs : collect (step E) (observe f) m (.start docs :: ls) =
      [] ++ collect (step E) (observe f) m₁ ls := collect_cons hstart
  rw [hobs]
  have hmem := (hinv.error herr).resolve_left fun hin => by
    rw [hidle] at hin
    exact hin
  rw [← tally_iff hmem, ← hinv.copies]
  exact ⟨fun hc => hc.number, fun hn => ⟨hn, copiesOf_kept htraced hold⟩⟩

/-! ## A label and an error in front of it -/

def labelDocs : Docs := Table.empty.put (ascii "a") (ascii "  @foo")

def labelAt (byte : Nat) : AsmSym where
  type := .label
  name := ascii "foo"
  name_cStr := cStr_foo
  nameIsGenerated := false
  id := 1
  region := ⟨⟨1, ascii "a"⟩, ⟨⟨1, byte + 1, byte⟩, ⟨1, byte + 5, byte + 4⟩⟩⟩

/-- A run that finds a label at `byte` of the file `a`. -/
def labelRun (byte : Nat) : List Label :=
  [.start labelDocs, .enter, .event (.fopen labelDocs ⟨1, ascii "a"⟩ none),
    .event (.putSymbol 256 (labelAt byte) []), .asmDone true, .chessDone, .leave, .finish]

/-- A pass over `a` that stops at an error before any label. -/
def brokenPass : List Label :=
  [.enter, .event (.fopen labelDocs ⟨1, ascii "a"⟩ none),
    .event (.report .error ⟨ascii "Invalid token", (labelAt 0).region, none⟩), .asmDone false,
    .leave, .finish]

/-- What the run of `brokenPass` leaves of a label at `byte`. -/
def brokenOutcome (byte : Nat) : Option (Bool × Bool × List SymId × Nat × Nat) :=
  (run (step asciiEnv) Machine.init (labelRun byte)).bind fun m =>
    (run (step asciiEnv) m (.start labelDocs :: brokenPass)).bind fun m' =>
      (m'.analyzer.previous.syms[0]?).map fun old =>
        (m'.phase = .idle, erred m'.analyzer (ascii "a"),
          definitionsOf m'.analyzer.previous (ascii "a"),
          (copiesOf m'.analyzer.current (ascii "a") 0).length,
          wanted old.byteOffset (collect (step asciiEnv) (observe (ascii "a")) m
            (.start labelDocs :: brokenPass)))

theorem brokenOutcome_some {byte n w : Nat}
    (h : brokenOutcome byte = some (true, true, [0], n, w)) :
    ∃ m m' old, run (step asciiEnv) Machine.init (labelRun byte) = some m ∧
      run (step asciiEnv) m (.start labelDocs :: brokenPass) = some m' ∧ m'.phase = .idle ∧
      erred m'.analyzer (ascii "a") = true ∧
      definitionsOf m'.analyzer.previous (ascii "a") = [0] ∧
      m'.analyzer.previous.syms[0]? = some old ∧
      (copiesOf m'.analyzer.current (ascii "a") 0).length = n ∧
      wanted old.byteOffset (collect (step asciiEnv) (observe (ascii "a")) m
        (.start labelDocs :: brokenPass)) = w := by
  obtain ⟨m, hm, h⟩ := Option.bind_eq_some_iff.mp h
  obtain ⟨m', hm', h⟩ := Option.bind_eq_some_iff.mp h
  obtain ⟨old, hold, h⟩ := Option.map_eq_some_iff.mp h
  simp only [Prod.mk.injEq, decide_eq_true_eq] at h
  exact ⟨m, m', old, hm, hm', h.1, h.2.1, h.2.2.1, hold, h.2.2.2.1, h.2.2.2.2⟩

/-- A label at byte 2 is carried over the error. -/
theorem carried_once_label :
    ∃ m m' old, run (step asciiEnv) Machine.init (labelRun 2) = some m ∧
      run (step asciiEnv) m (.start labelDocs :: brokenPass) = some m' ∧
      (copiesOf m'.analyzer.current (ascii "a") 0).length = 1 ∧
      m'.analyzer.previous.syms[0]? = some old ∧
      CarriesRight (SymNode.byteOffset old) (collect (step asciiEnv) (observe (ascii "a")) m
        (.start labelDocs :: brokenPass)) := by
  have hout : brokenOutcome 2 = some (true, true, [0], 1, 1) := by decide
  obtain ⟨m, m', old, hm, hm', hidle, herr, hdefs, hold, hn, hw⟩ := brokenOutcome_some hout
  have htraced := reachable_traced (Reachable.run ⟨_, hm⟩ hm')
  refine ⟨m, m', old, hm, hm', hn, hold, ?_⟩
  exact (carried_once_iff ⟨_, hm⟩ (fun docs hd => by simp [brokenPass] at hd) hm' hidle herr
    (by rw [hdefs]; exact List.mem_singleton_self 0) hold).mp ⟨hn.trans hw.symm,
      copiesOf_kept htraced hold⟩

/-- A label at byte 0 is lost. -/
theorem carried_once_fails :
    ∃ m m' old, run (step asciiEnv) Machine.init (labelRun 0) = some m ∧
      run (step asciiEnv) m (.start labelDocs :: brokenPass) = some m' ∧ m'.phase = .idle ∧
      erred m'.analyzer (ascii "a") = true ∧
      definitionsOf m'.analyzer.previous (ascii "a") = [0] ∧
      m'.analyzer.previous.syms[0]? = some old ∧
      ¬ CarriedOnce (collect (step asciiEnv) (observe (ascii "a")) m
          (.start labelDocs :: brokenPass)) old (copiesOf m'.analyzer.current (ascii "a") 0) := by
  have hout : brokenOutcome 0 = some (true, true, [0], 0, 1) := by decide
  obtain ⟨m, m', old, hm, hm', hidle, herr, hdefs, hold, hn, hw⟩ := brokenOutcome_some hout
  refine ⟨m, m', old, hm, hm', hidle, herr, hdefs, hold, fun hc => ?_⟩
  have hnumber := hc.number
  rw [hn, hw] at hnumber
  cases hnumber

end BuxnLs.Analysis
