/-
  What the filter of a request lets through, against what the first byte of the prefix and the
  current scope promise. The filter keeps half of a shorthand in fields of its own and half in the
  match type, and `&` or `/` behind the shorthand replaces the match type: `restricted_iff`. The
  scope of a local label is compared as a start of the name: `current_scope_iff`. The position of
  a symbol is compared with the prefix whatever file it is in: `position_free_iff`.
-/
import BuxnLs.Analysis.Carry
import BuxnLs.Analysis.Family

namespace BuxnLs.Analysis

open BuxnLs.Lib BuxnLs.Model

/-! ## The filter of a request -/

/-- The match type that a first byte chooses, and whether only subroutines pass. -/
inductive RuneChoice (rune : UInt8) : MatchType → Bool → Prop where
  | any : rune = 0x3b ∨ rune = 0x3d → RuneChoice rune .anyLabel false
  | subroutine : rune = 0x21 ∨ rune = 0x3f → RuneChoice rune .anyLabel true
  | zero : rune = 0x2e ∨ rune = 0x2d → RuneChoice rune .zeroLabel false
  | nearby : rune = 0x2c ∨ rune = 0x5f → RuneChoice rune .localLabel false
  | sub : rune = slash → RuneChoice rune .subLabel true
  | preceding : rune = 0x7c ∨ rune = 0x24 → RuneChoice rune .precedingLabel false
  | plain : isShorthand rune = false → rune ≠ slash → RuneChoice rune .anySymbol true

theorem isShorthand_iff (rune : UInt8) :
    isShorthand rune = true ↔ (rune = 0x3b ∨ rune = 0x3d) ∨ (rune = 0x21 ∨ rune = 0x3f) ∨
      (rune = 0x2e ∨ rune = 0x2d) ∨ (rune = 0x2c ∨ rune = 0x5f) ∨ (rune = 0x7c ∨ rune = 0x24) := by
  simp [isShorthand, or_assoc]

/-- A first byte chooses once. -/
theorem RuneChoice.unique {rune : UInt8} {m m' : MatchType} {s s' : Bool}
    (h : RuneChoice rune m s) (h' : RuneChoice rune m' s') : m = m' ∧ s = s' := by
  cases h <;> cases h' <;> first | exact ⟨rfl, rfl⟩ | grind [isShorthand_iff, slash]

theorem RuneChoice.plain_of {rune : UInt8} {m : MatchType} {s : Bool} (h : RuneChoice rune m s)
    (hm : m = .anySymbol) : isShorthand rune = false ∧ rune ≠ slash := by
  cases h with
  | plain hshorthand hslash => exact ⟨hshorthand, hslash⟩
  | _ => cases hm

theorem RuneChoice.local_of {rune : UInt8} {m : MatchType} {s : Bool} (h : RuneChoice rune m s)
    (hm : m = .localLabel) : s = false := by
  cases h with
  | nearby _ => rfl
  | _ => cases hm

theorem chooseByRune_choice {ctx : CompletionCtx} {rune : UInt8} {rest : Str} {ch : Choice}
    (htyped : ctx.typed = rune :: rest) (h : chooseByRune ctx = some ch) :
    RuneChoice rune ch.matchType ch.subroutineOnly ∧
      ch.typed = if ch.matchType = .anySymbol then rune :: rest else rest := by
  cases chooseByRune_branch htyped h with
  | any hr => exact ⟨.any hr, rfl⟩
  | subroutine hr => exact ⟨.subroutine hr, rfl⟩
  | zero hr => exact ⟨.zero hr, rfl⟩
  | nearby hr => exact ⟨.nearby hr, rfl⟩
  | sub hr => exact ⟨.sub hr, rfl⟩
  | preceding hr => exact ⟨.preceding hr, rfl⟩
  | plain hshorthand hslash => exact ⟨.plain hshorthand hslash, rfl⟩

/-- The match type after both passes: a mark behind a shorthand replaces it. -/
inductive FinalChoice (rune : UInt8) (rest : Str) (ch : Choice) : Prop where
  | marked {m} : RuneChoice rune m ch.subroutineOnly → m ≠ .anySymbol → Marked rest →
      ch.matchType = .subLabel → ch.typed = rest.drop 1 → ch.groupSymbols = false →
      FinalChoice rune rest ch
  | kept : RuneChoice rune ch.matchType ch.subroutineOnly →
      ch.matchType = .anySymbol ∨ ¬ Marked rest →
      (ch.typed = if ch.matchType = .anySymbol then rune :: rest else rest) →
      FinalChoice rune rest ch

theorem choose_final {ctx : CompletionCtx} (hctx : CtxTyped ctx) {rune : UInt8} {rest : Str}
    {ch : Choice} (htyped : ctx.typed = rune :: rest) (h : choose ctx = some ch) :
    FinalChoice rune rest ch := by
  obtain ⟨ch₀, hch₀, rfl⟩ := Option.map_eq_some_iff.mp h
  obtain ⟨hrune, hrest⟩ := chooseByRune_choice htyped hch₀
  have hkept : ¬ (ch₀.matchType ≠ .anySymbol ∧ Marked rest) →
      ch₀.matchType = .anySymbol ∨ ¬ Marked rest := by
    rw [not_and_or, not_not]
    exact fun hnot => hnot
  rcases chooseBySlash_cases hctx htyped ch₀ with
    ⟨hany, hmark, he⟩ | ⟨hnot, -, he⟩ | ⟨hnot, -, he⟩
  · rw [he]
    refine .marked hrune hany hmark rfl ?_ rfl
    show ch₀.typed.drop 1 = rest.drop 1
    rw [hrest, if_neg hany]
  · rw [he]
    exact .kept hrune (hkept hnot) hrest
  · rw [he]
    exact .kept hrune (hkept hnot) hrest

/-- What passes the filter of a request. -/
theorem matchSymbol_makeFilter_iff (ctx : CompletionCtx) (ch : Choice) (scope : Str)
    (sym : SymNode) :
    matchSymbol sym (makeFilter ctx ch scope) = true ↔
      (makeFilter ctx ch scope).typed <+: sym.name ∧
        ((sym.type = .label ∧
          (ch.matchType = .precedingLabel → cmpPos sym.range.start ctx.lspRange.start < 0) ∧
          (ch.subroutineOnly = true → isSubroutine sym = true) ∧
          (ch.matchType = .zeroLabel → sym.address ≤ 0x00ff)) ∨
        (sym.type ≠ .label ∧ ch.matchType = .anySymbol ∧
          cmpPos sym.range.start ctx.lspRange.start < 0)) := by
  have hmax : ¬ sym.address > 0xffff := by
    rw [gt_iff_lt, UInt16.lt_iff_toNat_lt]
    have := sym.address.toNat_lt
    exact Nat.not_lt.mpr (Nat.le_of_lt_succ this)
  have hmin : ¬ sym.address < 0 := UInt16.not_lt_zero
  unfold matchSymbol
  rw [decide_eq_true_eq, and_comm]
  refine and_congr_right fun _ => ?_
  by_cases hlabel : sym.type = .label
  · cases hm : ch.matchType <;> simp [makeFilter, hm, hlabel, hmax, hmin]
  · cases hm : ch.matchType <;> simp [makeFilter, hm, hlabel]

theorem label_of_match {ctx : CompletionCtx} {ch : Choice} {scope : Str} {sym : SymNode}
    (h : matchSymbol sym (makeFilter ctx ch scope) = true) (hany : ch.matchType ≠ .anySymbol) :
    sym.type = .label ∧
      (ch.matchType = .precedingLabel → cmpPos sym.range.start ctx.lspRange.start < 0) ∧
      (ch.subroutineOnly = true → isSubroutine sym = true) ∧
      (ch.matchType = .zeroLabel → sym.address ≤ 0x00ff) :=
  ((matchSymbol_makeFilter_iff ctx ch scope sym).mp h).2.resolve_right fun hc => hany hc.2.1

/-- The candidates of a request in a reachable state. -/
theorem request_candidates {E : Env} {m : Machine} (h : Reachable (step E) Machine.init m)
    (ctx : CompletionCtx) (ch : Choice) :
    candidates m.analyzer.current ctx ch = some ((m.analyzer.current.nodes
      (offered m.analyzer.current ctx.sourceId)).foldl
        (visitDefinition (requestVisit m.analyzer.current ctx ch)) .empty) := by
  rw [candidates_eq]
  exact visitSymbolsFromRoot_eq (reachable_graphOK h).current.acyclic _ _ _

/-! ## The restriction of a shorthand -/

/-- What the first byte of a prefix at `start` asks of a symbol. -/
structure Restricted (rune : UInt8) (start : Position) (sym : SymNode) : Prop where
  label : isShorthand rune = true → sym.type = .label
  zero : rune = 0x2e ∨ rune = 0x2d → sym.address ≤ 0x00ff
  preceding : rune = 0x7c ∨ rune = 0x24 → cmpPos sym.range.start start < 0
  subroutine : rune = 0x21 ∨ rune = 0x3f → isSubroutine sym = true

/-- A mark behind a shorthand whose restriction is in the match type. -/
def LosesRestriction (rune : UInt8) (rest : Str) : Prop :=
  ((rune = 0x2e ∨ rune = 0x2d) ∨ (rune = 0x7c ∨ rune = 0x24)) ∧ Marked rest

theorem restricted_of_match {ctx : CompletionCtx} {rune : UInt8} {rest : Str} {ch : Choice}
    {scope : Str} {sym : SymNode} (hfinal : FinalChoice rune rest ch)
    (hkeep : ¬ LosesRestriction rune rest)
    (h : matchSymbol sym (makeFilter ctx ch scope) = true) :
    Restricted rune ctx.lspRange.start sym := by
  cases hfinal with
  | marked hrune _ hmark hm _ _ =>
      obtain ⟨hlabel, -, hsub, -⟩ := label_of_match h (by rw [hm]; decide)
      refine ⟨fun _ => hlabel, fun hz => ?_, fun hp => ?_, fun hs => ?_⟩
      · exact absurd ⟨Or.inl hz, hmark⟩ hkeep
      · exact absurd ⟨Or.inr hp, hmark⟩ hkeep
      · exact hsub (hrune.unique (.subroutine hs)).2
  | kept hrune _ _ =>
      by_cases hany : ch.matchType = .anySymbol
      · refine ⟨fun hsh => ?_, fun hz => ?_, fun hp => ?_, fun hs => ?_⟩
        · rw [(hrune.plain_of hany).1] at hsh
          cases hsh
        · cases hany.symm.trans (hrune.unique (.zero hz)).1
        · cases hany.symm.trans (hrune.unique (.preceding hp)).1
        · cases hany.symm.trans (hrune.unique (.subroutine hs)).1
      · obtain ⟨hlabel, hpreceding, hsub, hzero⟩ := label_of_match h hany
        exact ⟨fun _ => hlabel, fun hz => hzero (hrune.unique (.zero hz)).1,
          fun hp => hpreceding (hrune.unique (.preceding hp)).1,
          fun hs => hsub (hrune.unique (.subroutine hs)).2⟩

/-- The label that a visit from `id` comes to last under a name. -/
def lastLabel (c : AnalyzerCtx) (id : SrcId) (name : Str) : Option SymNode :=
  ((c.nodes (offered c id)).filter fun node => node.type = .label ∧ node.name = name).getLast?

theorem symbolKey_ungrouped {visit : SymVisit} (h : visit.groupSymbols = false)
    (node : SymNode) : symbolKey visit node = node.name :=
  if_neg (by rw [h]; decide)

/-- Where the restriction is lost, every label under a name in the scope is a match. -/
theorem group_of_loses (c : AnalyzerCtx) (ctx : CompletionCtx) {rune : UInt8} {rest : Str}
    {ch : Choice} (hfinal : FinalChoice rune rest ch) (hlose : LosesRestriction rune rest) :
    ch.groupSymbols = false ∧
    (∀ sym, matchSymbol sym (makeFilter ctx ch (currentScope c ctx)) = true →
      currentScope c ctx ++ slash :: cStr (rest.drop 1) <+: sym.name) ∧
    ∀ key, currentScope c ctx ++ slash :: cStr (rest.drop 1) <+: key →
      (group c (requestVisit c ctx ch) ctx.sourceId key).getLast? =
        lastLabel c ctx.sourceId key := by
  obtain ⟨hrunes, hmark⟩ := hlose
  have hmarked : ch.matchType = .subLabel ∧ ch.typed = rest.drop 1 ∧ ch.groupSymbols = false ∧
      ch.subroutineOnly = false := by
    cases hfinal with
    | marked hrune _ _ hm htyped hgroup =>
        refine ⟨hm, htyped, hgroup, ?_⟩
        rcases hrunes with hz | hp
        · exact (hrune.unique (.zero hz)).2
        · exact (hrune.unique (.preceding hp)).2
    | kept hrune hno _ =>
        have hany := hno.resolve_right fun hc => hc hmark
        rcases hrunes with hz | hp
        · cases hany.symm.trans (hrune.unique (.zero hz)).1
        · cases hany.symm.trans (hrune.unique (.preceding hp)).1
  obtain ⟨hm, htyped, hgroup, hsub⟩ := hmarked
  have hwanted : (makeFilter ctx ch (currentScope c ctx)).typed =
      currentScope c ctx ++ slash :: cStr (rest.drop 1) := by
    unfold makeFilter
    rw [hm, htyped, cStr_currentScope]
  have hmatch : ∀ sym, matchSymbol sym (makeFilter ctx ch (currentScope c ctx)) = true ↔
      currentScope c ctx ++ slash :: cStr (rest.drop 1) <+: sym.name ∧ sym.type = .label := by
    intro sym
    rw [matchSymbol_makeFilter_iff, hwanted, hm, hsub]
    simp
  refine ⟨hgroup, fun sym h => ((hmatch sym).mp h).1, fun key hkey => ?_⟩
  unfold group lastLabel
  congr 1
  refine List.filter_congr fun node _ => ?_
  have hiff := hmatch node
  rw [symbolKey_ungrouped hgroup, decide_eq_decide]
  constructor
  · rintro ⟨h, hname⟩
    exact ⟨(hiff.mp h).2, hname⟩
  · rintro ⟨hlabel, hname⟩
    exact ⟨hiff.mpr ⟨hname ▸ hkey, hlabel⟩, hname⟩

/-- In every reachable state and for every prefix, each symbol of the map satisfies the
    restriction of the first byte, unless a mark follows `.`, `-`, `|` or `$`; then exactly if the
    last label under each name that continues the prefix in the scope happens to satisfy it. -/
theorem restricted_iff {E : Env} {m : Machine} (h : Reachable (step E) Machine.init m)
    {docs : Docs} {path : Str} {position : Position} {ctx : CompletionCtx} {ch : Choice}
    {rune : UInt8} {rest : Str}
    (hctx : completionCtx E m.analyzer.current docs path position = some ctx)
    (hch : choose ctx = some ch) (htyped : ctx.typed = rune :: rest) :
    ∃ map, candidates m.analyzer.current ctx ch = some map ∧
      ((∀ key item, map.find? key = some item →
          Restricted rune ctx.lspRange.start item.sym) ↔
        (LosesRestriction rune rest → ∀ name sym,
          lastLabel m.analyzer.current ctx.sourceId name = some sym →
          currentScope m.analyzer.current ctx ++ slash :: cStr (rest.drop 1) <+: name →
          Restricted rune ctx.lspRange.start sym)) := by
  have hfinal := choose_final (completionCtx_typed hctx) htyped hch
  refine ⟨_, request_candidates h ctx ch, fun hall hlose name sym hlast hname => ?_,
    fun hlast key item hitem => ?_⟩
  · obtain ⟨hgroup, -, hgroups⟩ := group_of_loses m.analyzer.current ctx hfinal hlose
    rw [← hgroups name hname] at hlast
    obtain ⟨item, hitem⟩ := exists_item (List.mem_of_getLast? hlast)
    have hsym := (find?_visited_some hitem).last hgroup
    rw [hlast] at hsym
    obtain rfl := Option.some.inj hsym
    exact hall name item hitem
  · have hspec := find?_visited_some hitem
    have hmatch := (mem_group_iff.mp hspec.sym).2
    by_cases hlose : LosesRestriction rune rest
    · obtain ⟨hgroup, hstart, hgroups⟩ :=
        group_of_loses m.analyzer.current ctx hfinal hlose
      have hname : item.sym.name = key := (symbolKey_ungrouped hgroup _).symm.trans hmatch.2
      have hprefix := hname ▸ hstart item.sym hmatch.1
      refine hlast hlose key item.sym ?_ hprefix
      rw [← hgroups key hprefix]
      exact hspec.last hgroup
    · exact restricted_of_match hfinal hlose hmatch.1

/-- `.f` behind the label `foo/bar`: no mark. -/
theorem restricted_zero :
    ∃ m ctx ch map, run (step asciiEnv) Machine.init (nearbyRun (nearbyDocs (ascii ".f"))) =
        some m ∧
      completionCtx asciiEnv m.analyzer.current (nearbyDocs (ascii ".f")) (ascii "a") ⟨0, 12⟩ =
        some ctx ∧
      choose ctx = some ch ∧ candidates m.analyzer.current ctx ch = some map ∧
      ∀ key item, map.find? key = some item →
        Restricted 0x2e ctx.lspRange.start item.sym := by
  have hout : (requestAfter (nearbyRun (nearbyDocs (ascii ".f"))) (nearbyDocs (ascii ".f"))
      (ascii "a") ⟨0, 12⟩).map (fun r => r.2.1.typed) = some [0x2e, 0x66] := by
    decide
  obtain ⟨⟨m, ctx, ch, map'⟩, hr, htyped⟩ := Option.map_eq_some_iff.mp hout
  obtain ⟨hm, hctx, hch, -⟩ := requestAfter_some hr
  obtain ⟨map, hmap, hiff⟩ := restricted_iff ⟨_, hm⟩ hctx hch htyped
  refine ⟨m, ctx, ch, map, hm, hctx, hch, hmap, hiff.mpr fun hlose => ?_⟩
  rcases hlose.2 with hmark | hmark
  · exact absurd hmark (by decide)
  · exact absurd hmark (by decide)

/-- `.&` in the scope `foo` offers `foo/bar`, at the address 0x0100. -/
theorem restriction_lost :
    ∃ m ctx ch map item,
      run (step asciiEnv) Machine.init (nearbyRun (nearbyDocs (ascii ".&"))) = some m ∧
      completionCtx asciiEnv m.analyzer.current (nearbyDocs (ascii ".&")) (ascii "a") ⟨0, 12⟩ =
        some ctx ∧
      ctx.typed = [0x2e, 0x26] ∧ choose ctx = some ch ∧
      candidates m.analyzer.current ctx ch = some map ∧
      map.find? (ascii "foo/bar") = some item ∧ item.sym.address = 0x0100 ∧
      ¬ Restricted 0x2e ctx.lspRange.start item.sym := by
  have hout : (requestAfter (nearbyRun (nearbyDocs (ascii ".&"))) (nearbyDocs (ascii ".&"))
      (ascii "a") ⟨0, 12⟩).bind (fun r => (r.2.2.2.find? (ascii "foo/bar")).map fun item =>
        (r.2.1.typed, item.sym.address)) = some ([0x2e, 0x26], 0x0100) := by
    decide
  obtain ⟨⟨m, ctx, ch, map⟩, hr, hout⟩ := Option.bind_eq_some_iff.mp hout
  obtain ⟨hm, hctx, hch, hmap⟩ := requestAfter_some hr
  obtain ⟨item, hitem, hout⟩ := Option.map_eq_some_iff.mp hout
  obtain ⟨htyped, haddress⟩ := Prod.mk.inj hout
  refine ⟨m, ctx, ch, map, item, hm, hctx, htyped, hch, hmap, hitem, haddress, fun hr => ?_⟩
  have hzero := hr.zero (Or.inl rfl)
  rw [haddress] at hzero
  exact absurd hzero (by decide)

/-! ## Where symbols are -/

/-- Behind the position that the search for the current scope starts from. -/
def BehindStart (p : Position) : Prop := 0 < cmpPos p ⟨-1, -1⟩

theorem behindStart_of_le {p : Position} (hline : -1 ≤ p.line) (hchar : 0 ≤ p.character) :
    BehindStart p := by
  unfold BehindStart cmpPos
  dsimp only
  split <;> omega

theorem utf16Loop_nonneg (u : Utf8proc) (lineLen byteOffset : Int) (fuel : Nat) (rest : Str)
    (itr : Int) {units : Int} (h : 0 ≤ units) :
    0 ≤ utf16Loop u lineLen byteOffset fuel rest itr units := by
  induction fuel generalizing rest itr units with
  | zero => exact h
  | succ fuel ih =>
      unfold utf16Loop
      split
      · exact h
      · split
        · exact ih _ _ (by omega)
        · refine ih _ _ ?_
          unfold codeUnits
          split <;> omega

theorem positionIn_behindStart (u : Utf8proc) (slice : Option (List Line)) (pos : AsmPos) :
    BehindStart (positionIn u slice pos) := by
  unfold positionIn
  dsimp only
  split
  · exact behindStart_of_le (by decide) (by decide)
  · split
    · exact behindStart_of_le (by decide) (by decide)
    · refine behindStart_of_le ?_ (utf16Loop_nonneg u _ _ _ _ _ (Int.le_refl 0))
      show (-1 : Int) ≤ (pos.line : Int) - 1
      omega

theorem convertRange_behindStart (E : Env) (a : Analyzer) (filename : Str) (range : AsmRange) :
    BehindStart (convertRange E a filename range).2.start :=
  positionIn_behindStart _ _ _

/-- Every listed definition starts behind the position that the search starts from. -/
structure StartsBehind (m : Machine) : Prop where
  current : ∀ f, ∀ n ∈ coresOf m.analyzer.current f, BehindStart n.range.start
  previous : ∀ f, ∀ n ∈ coresOf m.analyzer.previous f, BehindStart n.range.start

theorem startsBehind_init : StartsBehind Machine.init := by
  have hnil : ∀ f, coresOf AnalyzerCtx.empty f = [] := fun f => rfl
  constructor
  · intro f n hn
    cases (hnil f ▸ hn : n ∈ [])
  · intro f n hn
    cases (hnil f ▸ hn : n ∈ [])

theorem step_startsBehind {E : Env} {m m' : Machine} {l : Label} (hm : MachineOK E m)
    (hs : StartsBehind m) (h : step E m l = some m') : StartsBehind m' := by
  by_cases hstart : ∃ docs, l = .start docs
  · obtain ⟨docs, rfl⟩ := hstart
    obtain ⟨hprev, hlists⟩ := start_lists h
    refine ⟨fun f n hn => ?_, fun f n hn => ?_⟩
    · rw [(hlists f).1] at hn
      cases hn
    · rw [hprev] at hn
      exact hs.current f n hn
  · have hl : ∀ docs, l ≠ .start docs := fun docs he => hstart ⟨docs, he⟩
    refine ⟨fun f n hn => ?_, fun f n hn => ?_⟩
    · cases step_lists hm h hl with
      | quiet _ _ hc _ _ =>
          rw [hc] at hn
          exact hs.current f n hn
      | event _ _ hsame _ _ =>
          rw [hsame f] at hn
          exact hs.current f n hn
      | emit _ _ hnew _ _ =>
          obtain ⟨new, hemitted, hcores⟩ := hnew
          rw [hcores f] at hn
          split at hn
          · rcases List.mem_cons.mp hn with rfl | hn
            · rw [hemitted.range]
              exact convertRange_behindStart _ _ _ _
            · exact hs.current f n hn
          · exact hs.current f n hn
      | leave hcores _ _ =>
          rw [hcores f] at hn
          rcases List.mem_append.mp hn with hn | hn
          · -- a copy stands where the old definition stood
            obtain ⟨-, s, hmem, old, hold, he⟩ := carriedInto_copyOf (List.mem_reverse.mp hn)
            have hcore : core old ∈ coresOf m.analyzer.previous f :=
              List.mem_map_of_mem (mem_nodes_iff.mpr ⟨s, hmem, hold⟩)
            have hbehind := hs.previous f _ hcore
            rw [core_range] at hbehind
            rw [he]
            exact hbehind
          · exact hs.current f n hn
    · rw [(step_frame hm h hl).1] at hn
      exact hs.previous f n hn

theorem reachable_startsBehind {E : Env} {m : Machine}
    (h : Reachable (step E) Machine.init m) : StartsBehind m := by
  refine (h.inv (P := fun m => MachineOK E m ∧ StartsBehind m)
    ⟨machineOK_init E, startsBehind_init⟩ fun s l t hs hst => ?_).2
  exact ⟨step_ok hs.1 hst, step_startsBehind hs.1 hs.2 hst⟩

/-! ## The current scope -/

theorem cmpPos_swap (a b : Position) : cmpPos b a = -cmpPos a b := by
  unfold cmpPos
  split <;> split <;> omega

theorem cmpPos_le_trans {a b c : Position} (h : cmpPos a b ≤ 0) (h' : cmpPos b c ≤ 0) :
    cmpPos a c ≤ 0 := by
  unfold cmpPos at *
  split at h <;> split at h' <;> split <;> omega

/-- `scope` is the scope of a label with the greatest start before `start`, or `RESET`. -/
def ScopeAt (nodes : List SymNode) (start : Position) (scope : Str) : Prop :=
  ((∀ n ∈ nodes, n.type = .label → 0 ≤ cmpPos n.range.start start) ∧ scope = ascii "RESET") ∨
    ∃ n ∈ nodes, n.type = .label ∧ cmpPos n.range.start start < 0 ∧
      (∀ x ∈ nodes, x.type = .label → cmpPos x.range.start start < 0 →
        cmpPos x.range.start n.range.start ≤ 0) ∧ scope = labelScope n.name

/-- What the search holds after `nodes`. -/
def Recent (start : Position) (nodes : List SymNode) (best : Option SymNode × Position) : Prop :=
  (best = (none, ⟨-1, -1⟩) ∧ ∀ n ∈ nodes, n.type = .label → 0 ≤ cmpPos n.range.start start) ∨
    ∃ n ∈ nodes, best = (some n, n.range.start) ∧ n.type = .label ∧
      cmpPos n.range.start start < 0 ∧ ∀ x ∈ nodes, x.type = .label →
        cmpPos x.range.start start < 0 → cmpPos x.range.start n.range.start ≤ 0

theorem Recent.concat {start : Position} {nodes : List SymNode}
    {best : Option SymNode × Position} (h : Recent start nodes best) {node : SymNode}
    (hnode : BehindStart node.range.start) :
    Recent start (nodes ++ [node]) (recentLabel start best node) := by
  have hin : node ∈ nodes ++ [node] := List.mem_append_right _ (List.mem_singleton_self node)
  have hsplit : ∀ x ∈ nodes ++ [node], x ∈ nodes ∨ x = node := fun x hx =>
    (List.mem_append.mp hx).imp_right List.mem_singleton.mp
  unfold recentLabel
  split
  · rename_i htake
    obtain ⟨hlabel, hlater, hbefore⟩ := htake
    refine Or.inr ⟨node, hin, rfl, hlabel, hbefore, fun x hx hxl hxb => ?_⟩
    rcases hsplit x hx with hx | rfl
    · rcases h with ⟨-, hnone⟩ | ⟨n, -, rfl, -, -, hmax⟩
      · exact absurd hxb (Int.not_lt.mpr (hnone x hx hxl))
      · refine cmpPos_le_trans (hmax x hx hxl hxb) ?_
        rw [cmpPos_swap]
        dsimp only at hlater
        omega
    · unfold cmpPos
      rw [if_pos rfl]
      omega
  · rename_i hleave
    rcases h with ⟨rfl, hnone⟩ | ⟨n, hn, rfl, hlabel, hbefore, hmax⟩
    · refine Or.inl ⟨rfl, fun x hx hxl => ?_⟩
      rcases hsplit x hx with hx | rfl
      · exact hnone x hx hxl
      · by_contra hc
        exact hleave ⟨hxl, hnode, by omega⟩
    · refine Or.inr ⟨n, List.mem_append_left _ hn, rfl, hlabel, hbefore, fun x hx hxl hxb => ?_⟩
      rcases hsplit x hx with hx | rfl
      · exact hmax x hx hxl hxb
      · by_contra hc
        exact hleave ⟨hxl, by dsimp only; omega, hxb⟩

theorem foldl_recent (start : Position) {nodes : List SymNode}
    (h : ∀ n ∈ nodes, BehindStart n.range.start) :
    Recent start nodes (nodes.foldl (recentLabel start) (none, ⟨-1, -1⟩)) := by
  induction nodes using List.reverseRecOn with
  | nil => exact Or.inl ⟨rfl, fun n hn => absurd hn List.not_mem_nil⟩
  | append_singleton nodes node ih =>
      rw [List.foldl_append]
      exact (ih fun n hn => h n (List.mem_append_left _ hn)).concat
        (h node (List.mem_append_right _ (List.mem_singleton_self node)))

theorem completionCtx_source {E : Env} {c : AnalyzerCtx} {docs : Docs} {path : Str}
    {position : Position} {ctx : CompletionCtx}
    (h : completionCtx E c docs path position = some ctx) :
    c.srcs[ctx.sourceId]? = some ctx.source := by
  unfold completionCtx at h
  split at h
  · cases h
  · dsimp only at h
    split at h
    · cases h
    · split at h
      · cases h
      · split at h
        · cases h
        · obtain ⟨src, hs, rfl⟩ := Option.map_eq_some_iff.mp h
          exact hs

/-- The scope of a request in a reachable state. -/
theorem currentScope_at {E : Env} {m : Machine} (h : Reachable (step E) Machine.init m)
    {docs : Docs} {path : Str} {position : Position} {ctx : CompletionCtx}
    (hctx : completionCtx E m.analyzer.current docs path position = some ctx) :
    ScopeAt (m.analyzer.current.nodes ctx.source.definitions) ctx.lspRange.start
      (currentScope m.analyzer.current ctx) := by
  have hc := (reachable_ok h).current
  have hs := completionCtx_source hctx
  have hbehind : ∀ n ∈ m.analyzer.current.nodes ctx.source.definitions,
      BehindStart n.range.start := by
    intro n hn
    have hf := (hc.named _ _ hs).1
    have hlisted : n ∈ listed m.analyzer.current ctx.source.filename := by
      unfold listed
      rw [definitionsOf_of_srcs hf hs]
      exact hn
    have hstart := (reachable_startsBehind h).current _ _ (List.mem_map_of_mem hlisted)
    rwa [core_range] at hstart
  unfold currentScope
  rcases foldl_recent ctx.lspRange.start hbehind with ⟨hbest, hnone⟩ | ⟨n, hn, hbest, hrest⟩
  · rw [hbest]
    exact Or.inl ⟨hnone, rfl⟩
  · rw [hbest]
    exact Or.inr ⟨n, hn, hrest.1, hrest.2.1, hrest.2.2, rfl⟩

/-- The name continues the scope with something else than a slash. -/
def Continues (scope name : Str) : Prop := ∃ ch tail, name = scope ++ ch :: tail ∧ ch ≠ slash

/-- A name that starts with a scope is in the scope unless it continues it. -/
theorem labelScope_eq_iff {scope name : Str} (hs : slash ∉ scope) (h : scope <+: name) :
    labelScope name = scope ↔ ¬ Continues scope name := by
  obtain ⟨tail, rfl⟩ := h
  constructor
  · rintro he ⟨ch, rest, hname, hch⟩
    have hlonger : scope ++ [ch] <+: labelScope (scope ++ tail) := by
      rw [hname]
      refine ⟨labelScope rest, ?_⟩
      unfold labelScope
      have hin : ∀ x ∈ scope, decide (x ≠ slash) = true := fun x hx =>
        decide_eq_true fun hc => hs (hc ▸ hx)
      have hnext : decide (ch ≠ slash) = true := decide_eq_true hch
      rw [List.takeWhile_append_of_pos hin, List.takeWhile_cons, if_pos hnext,
        List.append_assoc, List.singleton_append]
    have hlen := hlonger.length_le
    rw [he, List.length_append, List.length_singleton] at hlen
    omega
  · intro hno
    cases tail with
    | nil => rw [List.append_nil, labelScope_of_notMem hs]
    | cons ch rest =>
        have hch : ch = slash := by
          by_contra hne
          exact hno ⟨ch, rest, rfl, hne⟩
        rw [hch, labelScope_append_slash hs]

theorem FinalChoice.local_of {rune : UInt8} {rest : Str} {ch : Choice}
    (h : FinalChoice rune rest ch) (hm : ch.matchType = .localLabel) :
    ch.subroutineOnly = false := by
  cases h with
  | marked _ _ _ hsub _ _ => cases hm.symm.trans hsub
  | kept hrune _ _ => exact hrune.local_of hm

/-- In every reachable state and for every prefix that asks for local labels or sub-labels, the
    current scope is that of the greatest label before the prefix, and each symbol of the map is
    in it, unless local labels are asked for; then exactly if no label of the family continues the
    scope with something else than a slash. -/
theorem current_scope_iff {E : Env} {m : Machine} (h : Reachable (step E) Machine.init m)
    {docs : Docs} {path : Str} {position : Position} {ctx : CompletionCtx} {ch : Choice}
    (hctx : completionCtx E m.analyzer.current docs path position = some ctx)
    (hch : choose ctx = some ch)
    (hlocal : ch.matchType = .localLabel ∨ ch.matchType = .subLabel) :
    ∃ map, candidates m.analyzer.current ctx ch = some map ∧
      ScopeAt (m.analyzer.current.nodes ctx.source.definitions) ctx.lspRange.start
        (currentScope m.analyzer.current ctx) ∧
      ((∀ key item, map.find? key = some item →
          labelScope item.sym.name = currentScope m.analyzer.current ctx) ↔
        (ch.matchType = .localLabel → ∀ d ∈ offered m.analyzer.current ctx.sourceId,
          ∀ node : SymNode, m.analyzer.current.syms[d]? = some node → node.type = .label →
            ¬ Continues (currentScope m.analyzer.current ctx) node.name)) := by
  obtain ⟨rune, rest, htyped⟩ := choose_typed hch
  have hfinal := choose_final (completionCtx_typed hctx) htyped hch
  have hs := slash_notMem_currentScope m.analyzer.current ctx
  have hany : ch.matchType ≠ .anySymbol := by
    rcases hlocal with hm | hm <;> rw [hm] <;> decide
  refine ⟨_, request_candidates h ctx ch, currentScope_at h hctx,
    fun hall hm d hd node hn hlabel hcont => ?_, fun hno key item hitem => ?_⟩
  · have hstart : currentScope m.analyzer.current ctx <+: node.name := by
      obtain ⟨b, tail, hname, -⟩ := hcont
      exact ⟨b :: tail, hname.symm⟩
    have hmatch : matchSymbol node
        (makeFilter ctx ch (currentScope m.analyzer.current ctx)) = true := by
      rw [matchSymbol_makeFilter_iff, hm, hfinal.local_of hm]
      refine ⟨?_, Or.inl ⟨hlabel, fun he => (by cases he), fun he => (by cases he),
        fun he => (by cases he)⟩⟩
      unfold makeFilter
      rw [hm]
      exact hstart
    have hin : node ∈ group m.analyzer.current (requestVisit m.analyzer.current ctx ch)
        ctx.sourceId (symbolKey (requestVisit m.analyzer.current ctx ch) node) :=
      mem_group_iff.mpr ⟨⟨d, hd, hn⟩, hmatch, rfl⟩
    obtain ⟨item, hitem⟩ := exists_item hin
    have hkey := (mem_group_iff.mp (find?_visited_some hitem).sym).2.2
    have hown := (local_of_symbolKey hkey).mp (hall _ item hitem)
    exact (labelScope_eq_iff hs hstart).mp hown hcont
  · obtain ⟨⟨d, hd, hn⟩, hmatch, -⟩ := mem_group_iff.mp (find?_visited_some hitem).sym
    have hstart := ((matchSymbol_makeFilter_iff _ _ _ _).mp hmatch).1
    have hlabel := (label_of_match hmatch hany).1
    unfold makeFilter at hstart
    rcases hlocal with hm | hm
    · rw [hm] at hstart
      exact (labelScope_eq_iff hs hstart).mpr (hno hm d hd item.sym hn hlabel)
    · rw [hm] at hstart
      rw [cStr_currentScope] at hstart
      rw [labelScope_of_startsWith hstart (by simp), labelScope_append_slash hs]

/-- `;/b` in the scope `foo` offers the sub-label `foo/bar`. -/
theorem current_scope_kept :
    ∃ m ctx ch map item,
      run (step asciiEnv) Machine.init (nearbyRun (nearbyDocs (ascii ";/b"))) = some m ∧
      completionCtx asciiEnv m.analyzer.current (nearbyDocs (ascii ";/b")) (ascii "a") ⟨0, 13⟩ =
        some ctx ∧
      choose ctx = some ch ∧ candidates m.analyzer.current ctx ch = some map ∧
      map.find? (ascii "foo/bar") = some item ∧
      ∀ key item, map.find? key = some item →
        labelScope item.sym.name = currentScope m.analyzer.current ctx := by
  have hout : (requestAfter (nearbyRun (nearbyDocs (ascii ";/b"))) (nearbyDocs (ascii ";/b"))
      (ascii "a") ⟨0, 13⟩).map (fun r => (r.2.2.1.matchType,
        (r.2.2.2.find? (ascii "foo/bar")).isSome)) = some (.subLabel, true) := by
    decide
  obtain ⟨⟨m, ctx, ch, map'⟩, hr, hout⟩ := Option.map_eq_some_iff.mp hout
  obtain ⟨htype, hsome⟩ := Prod.mk.inj hout
  obtain ⟨hm, hctx, hch, hmap'⟩ := requestAfter_some hr
  obtain ⟨item, hitem⟩ := Option.isSome_iff_exists.mp hsome
  obtain ⟨map, hmap, -, hiff⟩ := current_scope_iff ⟨_, hm⟩ hctx hch (Or.inr htype)
  obtain rfl := Option.some.inj (hmap.symm.trans hmap')
  refine ⟨m, ctx, ch, map, item, hm, hctx, hch, hmap, hitem, hiff.mpr fun hlocal => ?_⟩
  cases htype.symm.trans hlocal

/-- The label `foobar` behind a prefix in the scope `foo`. -/
def continuedDocs : Docs := Table.empty.put (ascii "a") (ascii "@foo , @foobar")

def continuedLabel (name : String) (id : UInt16) (start stop : AsmPos)
    (h : cStr (ascii name) = ascii name := by decide) : AsmSym where
  type := .label
  name := ascii name
  name_cStr := h
  nameIsGenerated := false
  id := id
  region := ⟨⟨1, ascii "a"⟩, ⟨start, stop⟩⟩

def continuedRun : List Label :=
  [.start continuedDocs, .enter, .event (.fopen continuedDocs ⟨1, ascii "a"⟩ none),
    .event (.putSymbol 256 (continuedLabel "foo" 1 ⟨1, 1, 0⟩ ⟨1, 5, 4⟩ cStr_foo) []),
    .event (.putSymbol 257 (continuedLabel "foobar" 2 ⟨1, 8, 7⟩ ⟨1, 15, 14⟩) []),
    .asmDone true, .chessDone, .leave, .finish]

/-- `,` in the scope `foo` offers `foobar`. -/
theorem current_scope_left :
    ∃ m ctx ch map item, run (step asciiEnv) Machine.init continuedRun = some m ∧
      completionCtx asciiEnv m.analyzer.current continuedDocs (ascii "a") ⟨0, 6⟩ = some ctx ∧
      choose ctx = some ch ∧ ch.matchType = .localLabel ∧
      candidates m.analyzer.current ctx ch = some map ∧
      map.find? (ascii "foobar") = some item ∧
      currentScope m.analyzer.current ctx = ascii "foo" ∧
      labelScope item.sym.name = ascii "foobar" := by
  have hout : (requestAfter continuedRun continuedDocs (ascii "a") ⟨0, 6⟩).bind (fun r =>
      (r.2.2.2.find? (ascii "foobar")).map fun item =>
        (r.2.2.1.matchType, currentScope r.1.analyzer.current r.2.1,
          labelScope item.sym.name)) = some (.localLabel, ascii "foo", ascii "foobar") := by
    decide
  obtain ⟨⟨m, ctx, ch, map⟩, hr, hout⟩ := Option.bind_eq_some_iff.mp hout
  obtain ⟨hm, hctx, hch, hmap⟩ := requestAfter_some hr
  obtain ⟨item, hitem, hout⟩ := Option.map_eq_some_iff.mp hout
  simp only [Prod.mk.injEq] at hout
  exact ⟨m, ctx, ch, map, item, hm, hctx, hch, hout.1, hmap, hitem, hout.2.1, hout.2.2⟩

/-! ## The position in another file -/

/-- The definition `d` at another place of its file. -/
def movedTo (c : AnalyzerCtx) (d : SymId) (range : Range) : AnalyzerCtx :=
  { c with syms := c.syms.modify d fun node => { node with range := range } }

/-- Whether `d` passes the filter of a request. -/
def passes (c : AnalyzerCtx) (ctx : CompletionCtx) (ch : Choice) (d : SymId) : Bool :=
  (c.syms[d]?).any fun node => matchSymbol node (makeFilter ctx ch (currentScope c ctx))

/-- A range of a text document starts at a position of it. -/
def InDocument (range : Range) : Prop := 0 ≤ range.start.line ∧ 0 ≤ range.start.character

/-- A macro that continues a prefix without shorthand, or a label that continues what follows `|`
    or `$`: only for these the filter compares the position. -/
def PositionRead (rune : UInt8) (rest : Str) (node : SymNode) : Prop :=
  (node.type = .label ∧ (rune = 0x7c ∨ rune = 0x24) ∧ ¬ Marked rest ∧ rest <+: node.name) ∨
    (node.type ≠ .label ∧ isShorthand rune = false ∧ rune ≠ slash ∧ rune :: rest <+: node.name)

theorem nodes_movedTo (c : AnalyzerCtx) {d : SymId} (range : Range) {ids : List SymId}
    (h : d ∉ ids) : (movedTo c d range).nodes ids = c.nodes ids := by
  unfold AnalyzerCtx.nodes
  refine List.filterMap_congr fun id hid => ?_
  exact List.getElem?_modify_ne _ _ fun he => h (he ▸ hid)

theorem passes_movedTo {c : AnalyzerCtx} {ctx : CompletionCtx} (ch : Choice) {d : SymId}
    {node : SymNode} (hn : c.syms[d]? = some node) (hd : d ∉ ctx.source.definitions)
    (range : Range) :
    passes (movedTo c d range) ctx ch d = matchSymbol { node with range := range }
      (makeFilter ctx ch (currentScope c ctx)) := by
  have hscope : currentScope (movedTo c d range) ctx = currentScope c ctx := by
    unfold currentScope
    rw [nodes_movedTo c range hd]
  have hnode : (movedTo c d range).syms[d]? = some { node with range := range } := by
    refine (getElem?_modify_iff _ _ _ _ _).mpr ⟨node, hn, ?_⟩
    rw [if_pos rfl]
  unfold passes
  rw [hscope, hnode, Option.any_some]

theorem RuneChoice.preceding_of {rune : UInt8} {m : MatchType} {s : Bool}
    (h : RuneChoice rune m s) (hm : m = .precedingLabel) :
    (rune = 0x7c ∨ rune = 0x24) ∧ s = false := by
  cases h with
  | preceding hr => exact ⟨hr, rfl⟩
  | _ => cases hm

theorem FinalChoice.preceding_iff {rune : UInt8} {rest : Str} {ch : Choice}
    (h : FinalChoice rune rest ch) :
    ch.matchType = .precedingLabel ↔ (rune = 0x7c ∨ rune = 0x24) ∧ ¬ Marked rest := by
  cases h with
  | marked _ _ hmark hm _ _ =>
      rw [hm]
      exact iff_of_false (by decide) fun hc => hc.2 hmark
  | kept hrune hno _ =>
      constructor
      · intro hm
        refine ⟨(hrune.preceding_of hm).1, hno.resolve_left ?_⟩
        rw [hm]
        decide
      · exact fun hc => (hrune.unique (.preceding hc.1)).1

theorem FinalChoice.any_iff {rune : UInt8} {rest : Str} {ch : Choice}
    (h : FinalChoice rune rest ch) :
    ch.matchType = .anySymbol ↔ isShorthand rune = false ∧ rune ≠ slash := by
  cases h with
  | marked hrune hany _ hm _ _ =>
      rw [hm]
      exact iff_of_false (by decide) fun hc => hany (hrune.unique (.plain hc.1 hc.2)).1
  | kept hrune _ _ =>
      exact ⟨hrune.plain_of, fun hc => (hrune.unique (.plain hc.1 hc.2)).1⟩

theorem FinalChoice.typed_eq {rune : UInt8} {rest : Str} {ch : Choice}
    (h : FinalChoice rune rest ch) (hm : ch.matchType ≠ .subLabel) :
    ch.typed = if ch.matchType = .anySymbol then rune :: rest else rest := by
  cases h with
  | marked _ _ _ hsub _ _ => exact absurd hsub hm
  | kept _ _ htyped => exact htyped

theorem FinalChoice.subroutine_of_preceding {rune : UInt8} {rest : Str} {ch : Choice}
    (h : FinalChoice rune rest ch) (hm : ch.matchType = .precedingLabel) :
    ch.subroutineOnly = false := by
  cases h with
  | marked _ _ _ hsub _ _ => cases hm.symm.trans hsub
  | kept hrune _ _ => exact (hrune.preceding_of hm).2

/-- Where the position is read it decides. -/
theorem match_of_read {ctx : CompletionCtx} {rune : UInt8} {rest : Str} {ch : Choice}
    (hfinal : FinalChoice rune rest ch) {node : SymNode} (hread : PositionRead rune rest node)
    (scope : Str) (range : Range) :
    matchSymbol { node with range := range } (makeFilter ctx ch scope) = true ↔
      cmpPos range.start ctx.lspRange.start < 0 := by
  rw [matchSymbol_makeFilter_iff]
  rcases hread with ⟨hlabel, hrune, hmark, hname⟩ | ⟨hlabel, hsh, hslash, hname⟩
  · have hm := hfinal.preceding_iff.mpr ⟨hrune, hmark⟩
    have htyped : ch.typed = rest := by
      rw [hfinal.typed_eq (by rw [hm]; decide), hm]
      rfl
    have hstart : (makeFilter ctx ch scope).typed <+: node.name := by
      unfold makeFilter
      rw [hm]
      exact htyped ▸ hname
    rw [hm, hfinal.subroutine_of_preceding hm]
    simp [hlabel, hstart]
  · have hm := hfinal.any_iff.mpr ⟨hsh, hslash⟩
    have htyped : ch.typed = rune :: rest := by
      rw [hfinal.typed_eq (by rw [hm]; decide), hm]
      rfl
    have hstart : (makeFilter ctx ch scope).typed <+: node.name := by
      unfold makeFilter
      rw [hm]
      exact htyped ▸ hname
    rw [hm]
    simp [hlabel, hstart]

/-- Elsewhere it does not matter. -/
theorem match_of_not_read {ctx : CompletionCtx} {rune : UInt8} {rest : Str} {ch : Choice}
    (hfinal : FinalChoice rune rest ch) {node : SymNode}
    (hread : ¬ PositionRead rune rest node) (scope : Str) (r r' : Range)
    (h : matchSymbol { node with range := r } (makeFilter ctx ch scope) = true) :
    matchSymbol { node with range := r' } (makeFilter ctx ch scope) = true := by
  rw [matchSymbol_makeFilter_iff] at h ⊢
  obtain ⟨hstart, ⟨hlabel, -, hsub, hzero⟩ | ⟨hlabel, hany, -⟩⟩ := h
  · refine ⟨hstart, Or.inl ⟨hlabel, fun hm => ?_, hsub, hzero⟩⟩
    have hname : rest <+: node.name := by
      unfold makeFilter at hstart
      rw [hm] at hstart
      dsimp only at hstart
      rw [hfinal.typed_eq (by rw [hm]; decide), if_neg (by rw [hm]; decide)] at hstart
      exact hstart
    obtain ⟨hrune, hmark⟩ := hfinal.preceding_iff.mp hm
    exact absurd (Or.inl ⟨hlabel, hrune, hmark, hname⟩) hread
  · have hname : rune :: rest <+: node.name := by
      unfold makeFilter at hstart
      rw [hany] at hstart
      dsimp only at hstart
      rw [hfinal.typed_eq (by rw [hany]; decide), if_pos hany] at hstart
      exact hstart
    obtain ⟨hsh, hslash⟩ := hfinal.any_iff.mp hany
    exact absurd (Or.inr ⟨hlabel, hsh, hslash, hname⟩) hread

/-- No position of a document is in front of `start` if its first is not. -/
theorem origin_le {range : Range} (h : InDocument range) {start : Position}
    (hstart : cmpPos range.start start < 0) : cmpPos ⟨0, 0⟩ start < 0 := by
  obtain ⟨hline, hchar⟩ := h
  unfold cmpPos at *
  dsimp only at *
  split at hstart <;> split <;> omega

/-- Some range of a document starts behind a position. -/
theorem exists_behind (start : Position) :
    ∃ range, InDocument range ∧ ¬ cmpPos range.start start < 0 := by
  refine ⟨⟨⟨(start.line.toNat : Int) + 1, 0⟩, ⟨0, 0⟩⟩, ⟨?_, Int.le_refl 0⟩, ?_⟩
  · dsimp only
    omega
  · unfold cmpPos
    dsimp only
    split <;> omega

/-- A definition of another file is not listed by the edited one. -/
theorem notMem_definitions_of_other {E : Env} {c : AnalyzerCtx} (hc : CtxWF E c) {docs : Docs}
    {path : Str} {position : Position} {ctx : CompletionCtx}
    (hctx : completionCtx E c docs path position = some ctx) {file : SrcId} {d : SymId}
    (hd : d ∈ definitionsAt c file) (hother : file ≠ ctx.sourceId) :
    d ∉ ctx.source.definitions := by
  intro hmem
  obtain ⟨node, hn, hsource⟩ := (hc.definitions _ _ (completionCtx_source hctx)).2 d hmem
  obtain ⟨node', hn', hsource'⟩ := hc.exists_definition hd
  obtain rfl := Option.some.inj (hn.symm.trans hn')
  exact hother (hsource'.symm.trans hsource)

/-- For every definition of another file, of the family in particular, in every reachable state:
    its place in that file decides whether it passes the filter exactly if the filter reads the
    position and the prefix is not at the very start of the document. -/
theorem position_free_iff {E : Env} {m : Machine} (h : Reachable (step E) Machine.init m)
    {docs : Docs} {path : Str} {position : Position} {ctx : CompletionCtx} {ch : Choice}
    {rune : UInt8} {rest : Str}
    (hctx : completionCtx E m.analyzer.current docs path position = some ctx)
    (hch : choose ctx = some ch) (htyped : ctx.typed = rune :: rest) {file : SrcId} {d : SymId}
    {node : SymNode} (hd : d ∈ definitionsAt m.analyzer.current file)
    (hother : file ≠ ctx.sourceId) (hn : m.analyzer.current.syms[d]? = some node) :
    (∀ r r', InDocument r → InDocument r' →
        passes (movedTo m.analyzer.current d r) ctx ch d =
          passes (movedTo m.analyzer.current d r') ctx ch d) ↔
      ¬ (PositionRead rune rest node ∧ cmpPos ⟨0, 0⟩ ctx.lspRange.start < 0) := by
  have hfinal := choose_final (completionCtx_typed hctx) htyped hch
  have hout := notMem_definitions_of_other (reachable_ok h).current hctx hd hother
  have hmoved : ∀ r r', passes (movedTo m.analyzer.current d r) ctx ch d =
        passes (movedTo m.analyzer.current d r') ctx ch d ↔
      (matchSymbol { node with range := r } (makeFilter ctx ch
          (currentScope m.analyzer.current ctx)) = true ↔
        matchSymbol { node with range := r' } (makeFilter ctx ch
          (currentScope m.analyzer.current ctx)) = true) := by
    intro r r'
    rw [passes_movedTo ch hn hout, passes_movedTo ch hn hout]
    exact Bool.eq_iff_iff
  simp only [hmoved]
  by_cases hread : PositionRead rune rest node
  · simp only [match_of_read hfinal hread, hread, true_and]
    constructor
    · intro hfree hstart
      obtain ⟨r, hr, hbehind⟩ := exists_behind ctx.lspRange.start
      have horigin : InDocument ⟨⟨0, 0⟩, ⟨0, 0⟩⟩ := ⟨Int.le_refl 0, Int.le_refl 0⟩
      exact hbehind ((hfree _ r horigin hr).mp hstart)
    · intro hstart r r' hr hr'
      exact iff_of_false (fun hb => hstart (origin_le hr hb)) fun hb => hstart (origin_le hr' hb)
  · refine iff_of_true (fun r r' _ _ => ?_) fun hc => hread hc.1
    exact ⟨match_of_not_read hfinal hread _ r r', match_of_not_read hfinal hread _ r' r⟩

/-! ### A macro of an included file -/

/-- `typed` stands behind the include of `f`, which defines the macro `PRINT`. -/
def includerDocs (typed : Str) : Docs := Table.empty.put (ascii "a") (ascii "~f " ++ typed)

def includedMacro : AsmSym where
  type := .macroDef
  name := ascii "PRINT"
  nameIsGenerated := false
  id := 1
  region := ⟨⟨2, ascii "f"⟩, ⟨⟨1, 1, 0⟩, ⟨1, 7, 6⟩⟩⟩

def includerRun (docs : Docs) : List Label :=
  [.start docs, .enter, .event (.fopen docs ⟨1, ascii "a"⟩ none),
    .event (.fopen docs ⟨2, ascii "f"⟩ (some (ascii "%PRINT { }"))),
    .event (.putSymbol 0 includedMacro []), .asmDone true, .chessDone, .leave, .finish]

/-- Behind `;` no macro passes, wherever it is. -/
theorem position_free_shorthand :
    ∃ m ctx ch node,
      run (step asciiEnv) Machine.init (includerRun (includerDocs (ascii ";PRI"))) = some m ∧
      completionCtx asciiEnv m.analyzer.current (includerDocs (ascii ";PRI")) (ascii "a")
        ⟨0, 7⟩ = some ctx ∧
      choose ctx = some ch ∧ m.analyzer.current.syms[0]? = some node ∧
      1 ∈ visited m.analyzer.current ctx.sourceId ∧
      0 ∈ definitionsAt m.analyzer.current 1 ∧ 1 ≠ ctx.sourceId ∧
      ∀ r r', InDocument r → InDocument r' →
        passes (movedTo m.analyzer.current 0 r) ctx ch 0 =
          passes (movedTo m.analyzer.current 0 r') ctx ch 0 := by
  have hout : (requestAfter (includerRun (includerDocs (ascii ";PRI")))
      (includerDocs (ascii ";PRI")) (ascii "a") ⟨0, 7⟩).bind (fun r =>
        (r.1.analyzer.current.syms[0]?).map fun node =>
          (r.2.1.typed, decide (1 ∈ visited r.1.analyzer.current r.2.1.sourceId),
            decide (0 ∈ definitionsAt r.1.analyzer.current 1), decide (1 ≠ r.2.1.sourceId),
            node.type)) = some (ascii ";PRI", true, true, true, .macroDef) := by
    decide
  obtain ⟨⟨m, ctx, ch, map⟩, hr, hout⟩ := Option.bind_eq_some_iff.mp hout
  obtain ⟨hm, hctx, hch, -⟩ := requestAfter_some hr
  obtain ⟨node, hn, hout⟩ := Option.map_eq_some_iff.mp hout
  simp only [Prod.mk.injEq, decide_eq_true_eq] at hout
  obtain ⟨htyped, hfile, hd, hother, htype⟩ := hout
  refine ⟨m, ctx, ch, node, hm, hctx, hch, hn, hfile, hd, hother,
    (position_free_iff ⟨_, hm⟩ hctx hch htyped hd hother hn).mpr fun hread => ?_⟩
  rcases hread.1 with ⟨hlabel, -⟩ | ⟨-, hsh, -⟩
  · cases htype.symm.trans hlabel
  · cases hsh

/-- `PRI` is completed to `PRINT` while the macro is on the first line of `f`, and not when it is
    on the fourth. -/
theorem position_of_other_file :
    ∃ m ctx ch,
      run (step asciiEnv) Machine.init (includerRun (includerDocs (ascii "PRI"))) = some m ∧
      completionCtx asciiEnv m.analyzer.current (includerDocs (ascii "PRI")) (ascii "a")
        ⟨0, 6⟩ = some ctx ∧
      choose ctx = some ch ∧ 1 ∈ visited m.analyzer.current ctx.sourceId ∧
      0 ∈ definitionsAt m.analyzer.current 1 ∧ 1 ≠ ctx.sourceId ∧
      passes (movedTo m.analyzer.current 0 ⟨⟨0, 0⟩, ⟨0, 6⟩⟩) ctx ch 0 = true ∧
      passes (movedTo m.analyzer.current 0 ⟨⟨3, 0⟩, ⟨3, 6⟩⟩) ctx ch 0 = false := by
  have hout : (requestAfter (includerRun (includerDocs (ascii "PRI")))
      (includerDocs (ascii "PRI")) (ascii "a") ⟨0, 6⟩).map (fun r =>
        (decide (1 ∈ visited r.1.analyzer.current r.2.1.sourceId),
          decide (0 ∈ definitionsAt r.1.analyzer.current 1), decide (1 ≠ r.2.1.sourceId),
          passes (movedTo r.1.analyzer.current 0 ⟨⟨0, 0⟩, ⟨0, 6⟩⟩) r.2.1 r.2.2.1 0,
          passes (movedTo r.1.analyzer.current 0 ⟨⟨3, 0⟩, ⟨3, 6⟩⟩) r.2.1 r.2.2.1 0)) =
        some (true, true, true, true, false) := by
    decide
  obtain ⟨⟨m, ctx, ch, map⟩, hr, hout⟩ := Option.map_eq_some_iff.mp hout
  obtain ⟨hm, hctx, hch, -⟩ := requestAfter_some hr
  simp only [Prod.mk.injEq, decide_eq_true_eq] at hout
  exact ⟨m, ctx, ch, hm, hctx, hch, hout⟩

end BuxnLs.Analysis
