/-
  Each definition listed once. A list gets a second node for an occurrence in two ways: a
  callback delivers what another pass of the run has delivered or carried, or a pass end carries
  what an earlier one has carried. `NoSecond` rules both out for a step, and whole runs list
  each definition once exactly when all of their steps meet it.
-/
import BuxnLs.Analysis.Carry

namespace BuxnLs.Analysis

open BuxnLs.Lib BuxnLs.Model Relation

/-! ## The property -/

/-- A symbol occurrence in a file. -/
def occurrence (n : SymNode) : SymType × Str × Nat := (n.type, n.name, n.byteOffset)

def occurrenceOf (sym : AsmSym) : SymType × Str × Nat :=
  (sym.type, sym.name, sym.region.range.start.byte)

/-- No two nodes of a definitions list stand for the same occurrence. -/
def ListedOnce (c : AnalyzerCtx) : Prop := ∀ f, ((listed c f).map occurrence).Nodup

theorem occurrence_core (n : SymNode) : occurrence (core n) = occurrence n := by
  obtain ⟨ht, hn, hb⟩ := core_key n
  unfold occurrence
  rw [ht, hn, hb]

theorem listedOnce_iff (c : AnalyzerCtx) :
    ListedOnce c ↔ ∀ f, ((coresOf c f).map occurrence).Nodup := by
  unfold ListedOnce coresOf
  have hcomp : occurrence ∘ core = occurrence := funext occurrence_core
  simp only [List.map_map, hcomp]

/-! ## The conditions on a step -/

/-- The definition that a step lists, with the entry of its pass. -/
def emission (m : Machine) : Label → Option (SrcId × AsmSym)
  | .event ev => m.phase.passCtx.bind fun ctx =>
    (emittedSym ctx ev).map fun sym => (ctx.entryNode, sym)
  | _ => none

/-- The nodes that stand for the occurrence of `sym` already. -/
def standing (m : Machine) (sym : AsmSym) : List SymNode :=
  (listed m.analyzer.current sym.region.filename.chars).filter fun n =>
    occurrence n = occurrenceOf sym

/-- What a step carries, with the file. -/
def carriedAt (m : Machine) : Label → List (Str × SymNode)
  | .leave => m.analyzer.files.keys.flatMap fun f => (carriedInto m.analyzer f).map fun n => (f, n)
  | _ => []

/-- The assembler has not emitted the definition in this pass before. -/
def EmitsOnce (m : Machine) (l : Label) : Prop :=
  ∀ e ∈ emission m l, ∀ n ∈ standing m e.2, n.origin ≠ .emitted e.1

/-- No other pass of the run has listed the definition, as its own or as an old symbol, and no
    earlier pass end has carried what this one carries. -/
def NoSecond (m : Machine) (l : Label) : Prop :=
  (∀ e ∈ emission m l, ∀ n ∈ standing m e.2, n.origin = .emitted e.1) ∧
    ∀ x ∈ carriedAt m l, ∀ n ∈ listed m.analyzer.current x.1, n.origin ≠ x.2.origin

instance (m : Machine) (l : Label) : Decidable (EmitsOnce m l) :=
  inferInstanceAs (Decidable (∀ e ∈ emission m l, ∀ n ∈ standing m e.2, n.origin ≠ .emitted e.1))

instance (m : Machine) (l : Label) : Decidable (NoSecond m l) :=
  inferInstanceAs (Decidable (_ ∧ _))

theorem mem_carriedAt_iff {m : Machine} {f : Str} {n : SymNode} :
    (f, n) ∈ carriedAt m .leave ↔ n ∈ carriedInto m.analyzer f := by
  simp only [carriedAt, List.mem_flatMap, List.mem_map, Prod.mk.injEq]
  constructor
  · rintro ⟨g, -, n', hn, rfl, rfl⟩
    exact hn
  · intro hn
    refine ⟨f, ?_, n, hn, rfl, rfl⟩
    rw [Table.mem_keys_iff, Option.isSome_iff_ne_none]
    intro hnone
    unfold carriedInto at hn
    rw [hnone] at hn
    exact absurd hn List.not_mem_nil

/-! ## Steps -/

structure OnceInv (E : Env) (m : Machine) : Prop where
  ok : MachineOK E m
  traced : Traced m.analyzer
  current : ListedOnce m.analyzer.current
  previous : ListedOnce m.analyzer.previous

theorem exists_core {c : AnalyzerCtx} {f : Str} {n : SymNode} :
    n ∈ coresOf c f ↔ ∃ n' ∈ listed c f, core n' = n := List.mem_map

/-- Two copies of one old definition stand for the same occurrence. -/
theorem CopyOf.occurrence_eq {previous : AnalyzerCtx} {f : Str} {s s' : SymId} {n n' : SymNode}
    (h : CopyOf previous f s n) (h' : CopyOf previous f s' n') (ho : n'.origin = n.origin) :
    occurrence n' = occurrence n := by
  obtain ⟨-, old, hold, he⟩ := h
  obtain ⟨-, old', hold', he'⟩ := h'
  have hs : s' = s := by
    rw [he, he'] at ho
    exact Origin.carried.inj ho
  subst hs
  obtain rfl : old' = old := Option.some.inj (hold'.symm.trans hold)
  rw [he, he']
  rfl

/-- A list without repeated outputs has one input for each. -/
theorem eq_of_nodup_filterMap {α β : Type} {g : α → Option β} {l : List α}
    (h : (l.filterMap g).Nodup) {a a' : α} {b : β} (ha : a ∈ l) (ha' : a' ∈ l)
    (hb : g a = some b) (hb' : g a' = some b) : a = a' := by
  induction l with
  | nil => exact absurd ha List.not_mem_nil
  | cons x l ih =>
      have hout : ∀ y ∈ l, g y = some b → b ∈ l.filterMap g := fun y hy he =>
        List.mem_filterMap.mpr ⟨y, hy, he⟩
      rw [List.filterMap_cons] at h
      rcases List.mem_cons.mp ha with rfl | hl
      · rcases List.mem_cons.mp ha' with rfl | hl'
        · rfl
        · rw [hb] at h
          exact absurd (hout a' hl' hb') (List.nodup_cons.mp h).1
      · rcases List.mem_cons.mp ha' with rfl | hl'
        · rw [hb'] at h
          exact absurd (hout a hl hb) (List.nodup_cons.mp h).1
        · refine ih ?_ hl hl'
          cases hx : g x with
          | none => rwa [hx] at h
          | some y =>
              rw [hx] at h
              exact (List.nodup_cons.mp h).2

/-- Where the previous lists hold each occurrence once, copies of one occurrence have one
    origin. -/
theorem CopyOf.origin_eq {previous : AnalyzerCtx} (honce : ListedOnce previous) {f : Str}
    {s s' : SymId} {n n' : SymNode} (h : CopyOf previous f s n) (h' : CopyOf previous f s' n')
    (ho : occurrence n' = occurrence n) : n'.origin = n.origin := by
  obtain ⟨hs, old, hold, he⟩ := h
  obtain ⟨hs', old', hold', he'⟩ := h'
  have hocc : occurrence old' = occurrence old := by
    rw [he, he'] at ho
    exact ho
  have hnd := honce f
  unfold listed AnalyzerCtx.nodes at hnd
  rw [List.map_filterMap] at hnd
  have hsame : s' = s := eq_of_nodup_filterMap hnd hs' hs (by rw [hold']; rfl)
    (by rw [hold, Option.map_some, hocc])
  rw [he, he', hsame]

theorem carriedNodes_sublist (previous : AnalyzerCtx) (source : SrcId) (last : Nat)
    (ids : List SymId) :
    ((carriedNodes previous source last ids).map occurrence).Sublist
      ((previous.nodes ids).map occurrence) := by
  unfold carriedNodes AnalyzerCtx.nodes
  induction ids with
  | nil => exact List.Sublist.refl _
  | cons id ids ih =>
      rw [List.filterMap_cons, List.filterMap_cons]
      cases previous.syms[id]? with
      | none => exact ih
      | some old =>
          rw [Option.bind_some]
          by_cases hle : old.byteOffset ≤ last
          · rw [if_pos hle]
            exact ih.cons _
          · rw [if_neg hle]
            exact ih.cons_cons _

theorem carriedInto_nodup {a : Analyzer} (h : ListedOnce a.previous) (f : Str) :
    ((carriedInto a f).map occurrence).Nodup := by
  unfold carriedInto
  cases a.files.find? f with
  | none => exact List.nodup_nil
  | some file =>
      rw [Option.elim_some]
      unfold carriedOf
      split
      · split
        · rename_i src source hsrc _
          have hnd := h f
          unfold listed definitionsOf at hnd
          rw [hsrc] at hnd
          exact hnd.sublist (carriedNodes_sublist _ _ _ _)
        · exact List.nodup_nil
      · exact List.nodup_nil

/-- A new definition is a second one exactly when its occurrence stands in the list. -/
theorem emit_listedOnce_iff {E : Env} {m m' : Machine} {entry : SrcId} {sym : AsmSym}
    (h : ListedOnce m.analyzer.current)
    (hnew : ListsNew E m.analyzer entry sym m'.analyzer.current) :
    ListedOnce m'.analyzer.current ↔ standing m sym = [] := by
  obtain ⟨node, hnode, hcores⟩ := hnew
  have hocc : occurrence node = occurrenceOf sym := by
    unfold occurrence occurrenceOf
    rw [hnode.type, hnode.name, hnode.byteOffset]
  -- the list of cores and the list itself have the same occurrences
  have hmem : occurrenceOf sym ∈
      (coresOf m.analyzer.current sym.region.filename.chars).map occurrence ↔
        standing m sym ≠ [] := by
    unfold coresOf standing
    rw [List.map_map, show occurrence ∘ core = occurrence from funext occurrence_core, Ne,
      List.filter_eq_nil_iff]
    simp
  rw [listedOnce_iff] at h ⊢
  constructor
  · intro honce
    have hfile := honce sym.region.filename.chars
    rw [hcores, if_pos rfl, List.map_cons, List.nodup_cons, hocc] at hfile
    by_contra hne
    exact hfile.1 (hmem.mpr hne)
  · intro hnil f
    rw [hcores]
    split
    · rename_i hf
      subst hf
      rw [List.map_cons, List.nodup_cons, hocc, hmem]
      exact ⟨fun hne => hne hnil, h _⟩
    · exact h f

/-- A pass end adds a second node exactly when it carries what has been carried. -/
theorem leave_listedOnce_iff {E : Env} {m m' : Machine} (hinv : OnceInv E m)
    (hcores : ∀ f, coresOf m'.analyzer.current f =
      (carriedInto m.analyzer f).reverse ++ coresOf m.analyzer.current f) :
    ListedOnce m'.analyzer.current ↔ ∀ x ∈ carriedAt m .leave,
      ∀ n ∈ listed m.analyzer.current x.1, n.origin ≠ x.2.origin := by
  have hcur := (listedOnce_iff _).mp hinv.current
  rw [listedOnce_iff]
  constructor
  · rintro honce ⟨f, n⟩ hx n₀ hn₀ ho
    have hn := mem_carriedAt_iff.mp hx
    obtain ⟨-, s, hcopy⟩ := carriedInto_copyOf hn
    have hmem : core n₀ ∈ coresOf m.analyzer.current f := List.mem_map_of_mem hn₀
    have hocc : occurrence (core n₀) = occurrence n := by
      rcases hinv.traced f _ hmem with ⟨entry, he, -⟩ | ⟨s', hcopy'⟩
      · obtain ⟨-, old, -, hn'⟩ := hcopy
        rw [core_origin] at he
        rw [he, hn'] at ho
        cases ho
      · exact hcopy.occurrence_eq hcopy' (by rw [core_origin]; exact ho)
    have hfile := honce f
    rw [hcores, List.map_append, List.nodup_append] at hfile
    refine hfile.2.2 (occurrence n) ?_ (occurrence n) ?_ rfl
    · exact List.mem_map_of_mem (List.mem_reverse.mpr hn)
    · exact List.mem_map.mpr ⟨_, hmem, hocc⟩
  · intro hno f
    rw [hcores, List.map_append, List.nodup_append]
    refine ⟨?_, hcur f, fun o ho o' ho' he => ?_⟩
    · rw [List.map_reverse, List.nodup_reverse]
      exact carriedInto_nodup hinv.previous f
    · obtain ⟨n, hn, rfl⟩ := List.mem_map.mp ho
      obtain ⟨n', hn', rfl⟩ := List.mem_map.mp ho'
      have hn := List.mem_reverse.mp hn
      obtain ⟨hlt, s, hcopy⟩ := carriedInto_copyOf hn
      rcases hinv.traced f n' hn' with ⟨entry, -, hle⟩ | ⟨s', hcopy'⟩
      · have hbyte : n.byteOffset = n'.byteOffset := congrArg (fun x => x.2.2) he
        omega
      · obtain ⟨n₀, hn₀, rfl⟩ := exists_core.mp hn'
        have ho := hcopy.origin_eq hinv.previous hcopy' he.symm
        rw [core_origin] at ho
        exact hno (f, n) (mem_carriedAt_iff.mpr hn) n₀ hn₀ ho

/-- A step keeps the lists without a second node exactly when it meets `NoSecond`. -/
theorem step_listedOnce_iff {E : Env} {m m' : Machine} {l : Label} (hinv : OnceInv E m)
    (honce : EmitsOnce m l) (h : step E m l = some m') :
    ListedOnce m'.analyzer.current ↔ NoSecond m l := by
  by_cases hl : ∃ docs, l = .start docs
  · obtain ⟨docs, rfl⟩ := hl
    refine iff_of_true ((listedOnce_iff _).mpr fun f => ?_)
      ⟨fun e he => (by cases he), fun x hx => ?_⟩
    · rw [((start_lists h).2 f).1]
      exact List.nodup_nil
    · exact absurd hx List.not_mem_nil
  · have hl : ∀ docs, l ≠ .start docs := fun docs he => hl ⟨docs, he⟩
    cases step_lists hinv.ok h hl with
    | quiet hev hle hc _ _ =>
        rw [hc]
        refine iff_of_true hinv.current ⟨fun e he => ?_, fun x hx => ?_⟩
        · cases l with
          | event ev => exact absurd rfl (hev ev)
          | _ => cases he
        · cases l with
          | leave => exact absurd rfl hle
          | _ => exact absurd hx List.not_mem_nil
    | @event ctx ev hctx he hsame _ _ =>
        have hem : emission m (.event ev) = none := by
          simp only [emission, hctx, Option.bind_some, he, Option.map_none]
        refine iff_of_true ((listedOnce_iff _).mpr fun f => ?_) ⟨fun e he' => ?_, fun x hx => ?_⟩
        · rw [hsame]
          exact (listedOnce_iff _).mp hinv.current f
        · rw [hem] at he'
          cases he'
        · exact absurd hx List.not_mem_nil
    | @emit ctx ev sym hctx he hnew _ _ =>
        have hem : emission m (.event ev) = some (ctx.entryNode, sym) := by
          simp only [emission, hctx, Option.bind_some, he, Option.map_some]
        rw [emit_listedOnce_iff hinv.current hnew]
        have hother := honce _ hem
        constructor
        · intro hnil
          refine ⟨fun e he' n hn => ?_, fun x hx => absurd hx List.not_mem_nil⟩
          obtain rfl : (ctx.entryNode, sym) = e := Option.some.inj (hem.symm.trans he')
          rw [hnil] at hn
          exact absurd hn List.not_mem_nil
        · intro hno
          exact List.eq_nil_iff_forall_not_mem.mpr fun n hn => hother n hn (hno.1 _ hem n hn)
    | leave hcores _ _ =>
        rw [leave_listedOnce_iff hinv hcores]
        exact ⟨fun hno => ⟨fun e he => (by cases he), hno⟩, And.right⟩

theorem step_onceInv {E : Env} {m m' : Machine} {l : Label} (hinv : OnceInv E m)
    (honce : EmitsOnce m l) (h : step E m l = some m') (hno : NoSecond m l) : OnceInv E m' where
  ok := step_ok hinv.ok h
  traced := step_traced hinv.ok hinv.traced h
  current := (step_listedOnce_iff hinv honce h).mpr hno
  previous := by
    by_cases hl : ∃ docs, l = .start docs
    · obtain ⟨docs, rfl⟩ := hl
      rw [(start_lists h).1]
      exact hinv.current
    · rw [(step_frame hinv.ok h fun docs he => hl ⟨docs, he⟩).1]
      exact hinv.previous

/-- During a run nodes are only put in front, so a second one stays. -/
theorem step_keeps_second {E : Env} {m m' : Machine} {l : Label} (hm : MachineOK E m)
    (h : step E m l = some m') (hidle : m.phase ≠ .idle)
    (hbad : ¬ ListedOnce m.analyzer.current) : ¬ ListedOnce m'.analyzer.current := by
  have hl : ∀ docs, l ≠ .start docs := by
    rintro docs rfl
    cases step_cases h with
    | start hp _ => exact hidle hp
  have hgrow : ∀ f, ∃ new, coresOf m'.analyzer.current f = new ++ coresOf m.analyzer.current f := by
    intro f
    cases step_lists hm h hl with
    | quiet _ _ hc _ _ => exact ⟨[], by rw [hc]; rfl⟩
    | event _ _ hsame _ _ => exact ⟨[], hsame f⟩
    | emit _ _ hnew _ _ =>
        obtain ⟨n, -, hcores⟩ := hnew
        rw [hcores]
        split
        · exact ⟨[n], rfl⟩
        · exact ⟨[], rfl⟩
    | leave hcores _ _ => exact ⟨_, hcores f⟩
  intro honce
  refine hbad ((listedOnce_iff _).mpr fun f => ?_)
  obtain ⟨new, hnew⟩ := hgrow f
  have hfile := (listedOnce_iff _).mp honce f
  rw [hnew, List.map_append] at hfile
  exact (List.nodup_append.mp hfile).2.1

theorem onceInv_init (E : Env) : OnceInv E Machine.init where
  ok := machineOK_init E
  traced := fun _ _ hn => absurd hn List.not_mem_nil
  current := fun _ => List.nodup_nil
  previous := fun _ => List.nodup_nil

/-- Over whole runs in which each pass emits a definition once, the lists hold each definition
    once after every analysis exactly when all steps meet `NoSecond`. -/
theorem listed_once_iff {E : Env} {m : Machine} {ls : List Label}
    (h : run (step E) Machine.init ls = some m) (hidle : m.phase = .idle)
    (honce : Meets (step E) EmitsOnce Machine.init ls) :
    Always (step E) (fun m => m.phase = .idle → ListedOnce m.analyzer.current) Machine.init ls ↔
      Meets (step E) NoSecond Machine.init ls :=
  always_iff_meets_at_rest (P := OnceInv E)
    (B := fun m => MachineOK E m ∧ ¬ ListedOnce m.analyzer.current)
    (fun _ _ _ hinv ho hs hc => step_onceInv hinv ho hs hc)
    (fun _ _ _ hinv ho hs hc => ⟨step_ok hinv.ok hs, fun hl =>
      hc ((step_listedOnce_iff hinv ho hs).mp hl)⟩)
    (fun _ _ _ hb hr hs => ⟨step_ok hb.1 hs, step_keeps_second hb.1 hs hr hb.2⟩)
    (fun _ hinv => hinv.current) (fun _ hb => hb.2) (onceInv_init E) honce h hidle

/-! ## A file that is included twice -/

def sharedDocs : Docs := (Table.empty.put (ascii "a") (ascii "~c")).put (ascii "b") (ascii "~c")

def sharedLabel : AsmSym where
  type := .label
  name := ascii "foo"
  name_cStr := cStr_foo
  nameIsGenerated := false
  id := 1
  region := ⟨⟨3, ascii "c"⟩, ⟨⟨1, 1, 0⟩, ⟨1, 5, 4⟩⟩⟩

/-- A pass over a file that includes `c`. -/
def sharedPass (file : CStr) : List Label :=
  [.enter, .event (.fopen sharedDocs file none),
    .event (.fopen sharedDocs ⟨3, ascii "c"⟩ (some (ascii "@foo"))),
    .event (.putSymbol 256 sharedLabel []), .asmDone true, .chessDone, .leave]

/-- One document includes `c`. -/
def loneRun : List Label :=
  .start (Table.empty.put (ascii "a") (ascii "~c")) :: (sharedPass ⟨1, ascii "a"⟩ ++ [.finish])

/-- Two documents include `c`. -/
def sharedRun : List Label :=
  .start sharedDocs :: (sharedPass ⟨1, ascii "a"⟩ ++ sharedPass ⟨2, ascii "b"⟩ ++ [.finish])

theorem listed_once_lone_include :
    ∃ m, run (step asciiEnv) Machine.init loneRun = some m ∧
      (listed m.analyzer.current (ascii "c")).length = 1 ∧
      ListedOnce m.analyzer.current := by
  have hout : (run (step asciiEnv) Machine.init loneRun).map (fun m =>
      ((listed m.analyzer.current (ascii "c")).length, decide (m.phase = .idle))) =
        some (1, true) := by decide
  obtain ⟨m, hm, he⟩ := Option.map_eq_some_iff.mp hout
  simp only [Prod.mk.injEq, decide_eq_true_eq] at he
  exact ⟨m, hm, he.1, (listed_once_iff hm he.2 (by decide)).mpr (by decide) loneRun
    List.prefix_rfl m hm he.2⟩

/-- The second pass lists the label of `c` again. -/
theorem listed_once_fails :
    ∃ m, run (step asciiEnv) Machine.init sharedRun = some m ∧ m.phase = .idle ∧
      Meets (step asciiEnv) EmitsOnce Machine.init sharedRun ∧
      ¬ ListedOnce m.analyzer.current := by
  have hout : (run (step asciiEnv) Machine.init sharedRun).map (fun m =>
      ((listed m.analyzer.current (ascii "c")).map occurrence, decide (m.phase = .idle))) =
        some ([(.label, ascii "foo", 0), (.label, ascii "foo", 0)], true) := by decide
  obtain ⟨m, hm, he⟩ := Option.map_eq_some_iff.mp hout
  simp only [Prod.mk.injEq, decide_eq_true_eq] at he
  refine ⟨m, hm, he.2, by decide, fun honce => ?_⟩
  have hfile := honce (ascii "c")
  rw [he.1] at hfile
  exact absurd hfile (by decide)

end BuxnLs.Analysis
