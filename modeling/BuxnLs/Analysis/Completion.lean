/-
  What completion inserts. `Candidate` is what the visit of the file graph promises of every item
  of the map, `RuneCase` what the first byte of the prefix chooses. From both follows, for each
  item written for a symbol, which text stands in the document afterwards, and that it names the
  symbol unless the prefix and the symbol are in one of the cases of `Misnames`.
-/
import BuxnLs.Analysis.Acyclic
import BuxnLs.Model.AsciiEnv

namespace BuxnLs.Analysis

open BuxnLs.Lib BuxnLs.Model

/-! ## Scopes -/

theorem labelScope_cons (ch : UInt8) (rest : Str) :
    labelScope (ch :: rest) = if ch = slash then [] else ch :: labelScope rest := by
  unfold labelScope
  rw [List.takeWhile_cons]
  by_cases h : ch = slash <;> simp [h]

theorem eq_labelScope_iff (name : Str) : name = labelScope name ↔ slash ∉ name :=
  ⟨fun h => h ▸ slash_notMem_labelScope name, fun h => (labelScope_of_notMem h).symm⟩

/-- A name with a slash is its scope, a slash and a local name. -/
theorem exists_local {name : Str} (h : slash ∈ name) :
    ∃ scope n, slash ∉ scope ∧ name = scope ++ slash :: n := by
  induction name with
  | nil => exact absurd h List.not_mem_nil
  | cons ch rest ih =>
      by_cases hc : ch = slash
      · exact ⟨[], rest, List.not_mem_nil, by rw [hc]; rfl⟩
      · have hrest : slash ∈ rest := (List.mem_cons.mp h).resolve_left fun he => hc he.symm
        obtain ⟨scope, n, hs, rfl⟩ := ih hrest
        refine ⟨ch :: scope, n, fun hm => ?_, rfl⟩
        exact (List.mem_cons.mp hm).elim (fun he => hc he.symm) hs

theorem drop_scope_append {scope : Str} (hs : slash ∉ scope) (n : Str) :
    (scope ++ slash :: n).drop (labelScope (scope ++ slash :: n)).length = slash :: n ∧
      (scope ++ slash :: n).drop ((labelScope (scope ++ slash :: n)).length + 1) = n := by
  rw [labelScope_append_slash hs]
  constructor
  · exact List.drop_left
  · rw [← List.drop_drop, List.drop_left, List.drop_one, List.tail_cons]

theorem take_scope_append {scope : Str} (hs : slash ∉ scope) (n : Str) :
    (scope ++ slash :: n).take ((labelScope (scope ++ slash :: n)).length + 1) =
      scope ++ [slash] := by
  rw [labelScope_append_slash hs, List.take_append, List.take_of_length_le (Nat.le_succ _),
    Nat.add_sub_cancel_left, List.take_one]
  rfl

theorem labelScope_of_startsWith {typed name : Str} (h : typed <+: name) (hs : slash ∈ typed) :
    labelScope name = labelScope typed := by
  obtain ⟨rest, rfl⟩ := h
  obtain ⟨scope, n, hscope, rfl⟩ := exists_local hs
  rw [List.append_assoc, List.cons_append, labelScope_append_slash hscope,
    labelScope_append_slash hscope]

theorem idxOf?_slash (chars : Str) :
    chars.idxOf? slash = if slash ∈ chars then some (labelScope chars).length else none := by
  induction chars with
  | nil => rfl
  | cons ch rest ih =>
      rw [List.idxOf?_cons, labelScope_cons]
      by_cases hc : ch = slash
      · subst hc
        simp
      · have hne : slash ≠ ch := fun he => hc he.symm
        by_cases hrest : slash ∈ rest <;> simp [ih, hc, hne, hrest]

/-! ## Candidates -/

/-- What holds of an item under its key. -/
structure Candidate (visit : SymVisit) (key : Str) (item : CompletionItem) : Prop where
  matched : matchSymbol item.sym visit.filter = true
  isLocal : item.isLocal = decide (labelScope item.sym.name = visit.currentScope)
  key : visit.groupSymbols = true →
    key = if item.isLocal then item.sym.name else labelScope item.sym.name

def Candidates (visit : SymVisit) (map : CompletionMap) : Prop :=
  ∀ key item, map.find? key = some item → Candidate visit key item

theorem Candidates.put {visit : SymVisit} {map : CompletionMap} (h : Candidates visit map)
    {key : Str} {item : CompletionItem} (hitem : Candidate visit key item) :
    Candidates visit (map.put key item) := by
  intro k i hi
  rw [Table.find?_put] at hi
  split at hi
  · rename_i hk
    obtain rfl := Option.some.inj hi
    exact hk ▸ hitem
  · exact h k i hi

/-- Symbols that share a key are local together. -/
theorem local_of_same_key {scope name name' : Str}
    (hk : (if labelScope name = scope then name else labelScope name) =
      if labelScope name' = scope then name' else labelScope name') :
    labelScope name = scope ↔ labelScope name' = scope := by
  have hcross : ∀ x y : Str, labelScope x = scope → x = labelScope y → labelScope y = scope := by
    intro x y hx he
    rw [he, labelScope_idem] at hx
    exact hx
  by_cases h : labelScope name = scope
  · by_cases h' : labelScope name' = scope
    · exact iff_of_true h h'
    · rw [if_pos h, if_neg h'] at hk
      exact absurd (hcross name name' h hk) h'
  · by_cases h' : labelScope name' = scope
    · rw [if_neg h, if_pos h'] at hk
      exact absurd (hcross name' name h' hk.symm) h
    · exact iff_of_false h h'

theorem visitDefinition_candidates {visit : SymVisit} {map : CompletionMap}
    (h : Candidates visit map) (node : SymNode) :
    Candidates visit (visitDefinition visit map node) := by
  unfold visitDefinition
  split
  · rename_i hmatch
    dsimp only
    split
    · rename_i hgroup
      have hfresh : Candidate visit
          (if decide (labelScope node.name = visit.currentScope) = true then node.name
            else labelScope node.name)
          ⟨node, 1, decide (labelScope node.name = visit.currentScope)⟩ :=
        ⟨hmatch, rfl, fun _ => rfl⟩
      split
      · exact h.put hfresh
      · rename_i item hitem
        have hold := h _ _ hitem
        have hkey := hold.key hgroup
        have hiff : labelScope node.name = visit.currentScope ↔
            labelScope item.sym.name = visit.currentScope := by
          refine local_of_same_key ?_
          rw [hold.isLocal] at hkey
          simpa using hkey
        refine h.put ?_
        by_cases hroot : node.name = labelScope node.name
        · rw [if_pos hroot]
          refine ⟨hmatch, ?_, fun _ => ?_⟩
          · rw [hold.isLocal, decide_eq_decide]
            exact hiff.symm
          · rw [hold.isLocal, decide_eq_decide.mpr hiff.symm]
        · rw [if_neg hroot]
          exact ⟨hold.matched, hold.isLocal, hold.key⟩
    · rename_i hgroup
      exact h.put ⟨hmatch, rfl, fun hg => absurd hg hgroup⟩
  · exact h

theorem visitSymbolsFromRoot_candidates {c : AnalyzerCtx} {visit : SymVisit} {fuel : Nat}
    {map : CompletionMap} {id : SrcId}
    (h : visitSymbolsFromRoot c visit fuel .empty id = some map) : Candidates visit map := by
  have hfile : ∀ map id, Candidates visit map → Candidates visit (visitFile c visit map id) := by
    intro map id hmap
    unfold visitFile
    split
    · exact hmap
    · rename_i src _
      induction c.nodes src.definitions generalizing map with
      | nil => exact hmap
      | cons node nodes ih => exact ih _ (visitDefinition_candidates hmap node)
  refine climb_inv (P := Candidates visit) (fun map map' v hmap hv => ?_)
    (fun key item hi => by cases hi) h
  exact descend_inv (P := Candidates visit) (fun map v hmap => hfile map v hmap) hmap hv

theorem slash_notMem_currentScope (c : AnalyzerCtx) (ctx : CompletionCtx) :
    slash ∉ currentScope c ctx := by
  unfold currentScope
  split
  · decide
  · exact slash_notMem_labelScope _

theorem cStr_currentScope (c : AnalyzerCtx) (ctx : CompletionCtx) :
    cStr (currentScope c ctx) = currentScope c ctx := by
  unfold currentScope
  split
  · decide
  · exact cStr_labelScope (SymNode.name_cStr _)

/-- What a match promises of the symbol. -/
theorem matchSymbol_spec {node : SymNode} {filter : SymFilter}
    (h : matchSymbol node filter = true) :
    filter.typed <+: node.name ∧ (filter.labelsOnly = true → node.type = .label) := by
  unfold matchSymbol at h
  simp only [decide_eq_true_eq] at h
  refine ⟨h.2, fun hl => ?_⟩
  by_contra hne
  rw [if_neg hne] at h
  exact h.1.1 hl

/-! ## The choice -/

/-- The bytes that are dropped from the front of what is inserted: all shorthands but `/`. -/
def isShorthand (ch : UInt8) : Bool :=
  ch ∈ [0x3b, 0x3d, 0x21, 0x3f, 0x2e, 0x2d, 0x2c, 0x5f, 0x7c, 0x24]

/-- The choice of a first byte, branch by branch. -/
inductive RuneBranch (start : Nat) (rune : UInt8) (rest : Str) : Choice → Prop where
  | any : rune = 0x3b ∨ rune = 0x3d →
      RuneBranch start rune rest ⟨.anyLabel, .fullName, rest, false, start + 1, true⟩
  | subroutine : rune = 0x21 ∨ rune = 0x3f →
      RuneBranch start rune rest ⟨.anyLabel, .fullName, rest, true, start + 1, true⟩
  | zero : rune = 0x2e ∨ rune = 0x2d →
      RuneBranch start rune rest ⟨.zeroLabel, .fullName, rest, false, start + 1, true⟩
  | nearby : rune = 0x2c ∨ rune = 0x5f →
      RuneBranch start rune rest ⟨.localLabel, .fullName, rest, false, start + 1, false⟩
  | sub : rune = slash →
      RuneBranch start rune rest ⟨.subLabel, .localName, rest, true, start + 1, false⟩
  | preceding : rune = 0x7c ∨ rune = 0x24 →
      RuneBranch start rune rest ⟨.precedingLabel, .fullName, rest, false, start + 1, true⟩
  | plain : isShorthand rune = false → rune ≠ slash →
      RuneBranch start rune rest ⟨.anySymbol, .fullName, rune :: rest, true, start, true⟩

theorem chooseByRune_branch {ctx : CompletionCtx} {rune : UInt8} {rest : Str} {ch : Choice}
    (htyped : ctx.typed = rune :: rest) (h : chooseByRune ctx = some ch) :
    RuneBranch ctx.prefixStartByte rune rest ch := by
  unfold chooseByRune at h
  rw [htyped] at h
  dsimp only at h
  split at h
  · next hr =>
      cases h
      exact .any hr
  · split at h
    · next hr =>
        cases h
        exact .subroutine hr
    · split at h
      · next hr =>
          cases h
          exact .zero hr
      · split at h
        · next hr =>
            cases h
            exact .nearby hr
        · split at h
          · next hr =>
              cases h
              exact .sub hr
          · split at h
            · cases h
            · split at h
              · next hr =>
                  cases h
                  exact .preceding hr
              · next h1 h2 h3 h4 hslash _ h6 =>
                  cases h
                  refine .plain ?_ hslash
                  simp only [not_or] at h1 h2 h3 h4 h6
                  simp [isShorthand, h1, h2, h3, h4, h6]

/-- What the first byte of a prefix `rune :: rest` chooses. -/
inductive RuneCase (start : Nat) (rune : UInt8) (rest : Str) (ch : Choice) : Prop where
  | plain : isShorthand rune = false → rune ≠ slash → ch.matchType = .anySymbol →
      ch.formatType = .fullName → ch.typed = rune :: rest → ch.textEditStart = start →
      RuneCase start rune rest ch
  | sub : rune = slash → ch.matchType = .subLabel → ch.formatType = .localName →
      ch.typed = rest → ch.textEditStart = start + 1 → RuneCase start rune rest ch
  | nearby : rune = 0x2c ∨ rune = 0x5f → ch.matchType = .localLabel →
      ch.formatType = .fullName → ch.typed = rest → ch.textEditStart = start + 1 →
      RuneCase start rune rest ch
  | label : isShorthand rune = true → ¬ (rune = 0x2c ∨ rune = 0x5f) →
      ch.matchType = .anyLabel ∨ ch.matchType = .zeroLabel ∨ ch.matchType = .precedingLabel →
      ch.formatType = .fullName → ch.typed = rest → ch.textEditStart = start + 1 →
      RuneCase start rune rest ch

theorem chooseByRune_cases {ctx : CompletionCtx} {rune : UInt8} {rest : Str} {ch : Choice}
    (htyped : ctx.typed = rune :: rest) (h : chooseByRune ctx = some ch) :
    RuneCase ctx.prefixStartByte rune rest ch := by
  cases chooseByRune_branch htyped h with
  | any hr =>
      exact .label (by rcases hr with rfl | rfl <;> rfl)
        (by rcases hr with rfl | rfl <;> decide) (Or.inl rfl) rfl rfl rfl
  | subroutine hr =>
      exact .label (by rcases hr with rfl | rfl <;> rfl)
        (by rcases hr with rfl | rfl <;> decide) (Or.inl rfl) rfl rfl rfl
  | zero hr =>
      exact .label (by rcases hr with rfl | rfl <;> rfl)
        (by rcases hr with rfl | rfl <;> decide) (Or.inr (Or.inl rfl)) rfl rfl rfl
  | nearby hr => exact .nearby hr rfl rfl rfl rfl
  | sub hr => exact .sub hr rfl rfl rfl rfl
  | preceding hr =>
      exact .label (by rcases hr with rfl | rfl <;> rfl)
        (by rcases hr with rfl | rfl <;> decide) (Or.inr (Or.inr rfl)) rfl rfl rfl
  | plain hshorthand hslash => exact .plain hshorthand hslash rfl rfl rfl rfl

/-- The typed prefix is what stands in the line between its two bytes. -/
structure CtxTyped (ctx : CompletionCtx) : Prop where
  typed : ctx.typed = (ctx.lineContent.chars.take ctx.prefixEndByte).drop ctx.prefixStartByte

/-- The search for a slash behind the first byte of the prefix. -/
theorem firstSlash_eq {ctx : CompletionCtx} (hctx : CtxTyped ctx) {rune : UInt8} {rest : Str}
    (htyped : ctx.typed = rune :: rest) :
    firstSlash ctx.lineContent.chars (ctx.prefixStartByte + 1) ctx.prefixEndByte =
      if slash ∈ rest then some (ctx.prefixStartByte + 1 + (labelScope rest).length)
      else none := by
  have hrest : (ctx.lineContent.chars.take ctx.prefixEndByte).drop (ctx.prefixStartByte + 1) =
      rest := by
    rw [← List.drop_drop, ← hctx.typed, htyped]
    rfl
  unfold firstSlash
  rw [hrest, idxOf?_slash]
  split <;> rfl

/-- `&` or `/` behind the first byte. -/
def Marked (rest : Str) : Prop := rest.head? = some 0x26 ∨ rest.head? = some slash

/-- The choice when a mark follows the first byte. -/
def markedChoice (ctx : CompletionCtx) (ch : Choice) : Choice :=
  { ch with
      matchType := .subLabel, formatType := .localName, typed := ch.typed.drop 1,
      textEditStart := ctx.prefixStartByte + 2, groupSymbols := false }

/-- The choice when `rest`, behind the first byte, has a slash. -/
def slashedChoice (ctx : CompletionCtx) (rest : Str) (ch : Choice) : Choice :=
  { ch with
      formatType := .localName
      textEditStart := ctx.prefixStartByte + 1 + (labelScope rest).length + 1
      groupSymbols := false }

theorem chooseBySlash_cases {ctx : CompletionCtx} (hctx : CtxTyped ctx) {rune : UInt8}
    {rest : Str} (htyped : ctx.typed = rune :: rest) (ch : Choice) :
    (ch.matchType ≠ .anySymbol ∧ Marked rest ∧ chooseBySlash ctx ch = markedChoice ctx ch) ∨
    (¬ (ch.matchType ≠ .anySymbol ∧ Marked rest) ∧ slash ∈ rest ∧
      chooseBySlash ctx ch = slashedChoice ctx rest ch) ∨
    (¬ (ch.matchType ≠ .anySymbol ∧ Marked rest) ∧ slash ∉ rest ∧ chooseBySlash ctx ch = ch) := by
  have hhead : ctx.typed[1]? = rest.head? := by
    rw [htyped, List.getElem?_cons_succ, List.head?_eq_getElem?]
  by_cases hm : ch.matchType ≠ .anySymbol ∧ Marked rest
  · refine Or.inl ⟨hm.1, hm.2, ?_⟩
    unfold chooseBySlash
    rw [hhead]
    exact if_pos hm
  · have hfirst := firstSlash_eq hctx htyped
    by_cases hs : slash ∈ rest
    · rw [if_pos hs] at hfirst
      refine Or.inr (Or.inl ⟨hm, hs, ?_⟩)
      unfold chooseBySlash
      rw [hhead, hfirst]
      exact if_neg hm
    · rw [if_neg hs] at hfirst
      refine Or.inr (Or.inr ⟨hm, hs, ?_⟩)
      unfold chooseBySlash
      rw [hhead, hfirst]
      exact if_neg hm

/-- What a choice comes to for the prefix `rune :: rest` in `scope`: the bytes that stay in front
    of the edit, the format, the start that names must have, and whether they must be labels. What
    is formatted behind the scope ends at a NUL. -/
inductive ChoiceCase (scope : Str) (rune : UInt8) (rest : Str) :
    Str → FormatType → Str → Bool → Prop where
  | plain : isShorthand rune = false → rune ≠ slash → slash ∉ rest →
      ChoiceCase scope rune rest [] .fullName (rune :: rest) false
  | plainSlash : isShorthand rune = false → rune ≠ slash → slash ∈ rest →
      ChoiceCase scope rune rest (rune :: (labelScope rest ++ [slash])) .localName (rune :: rest)
        false
  | sub : rune = slash → ¬ Marked rest → slash ∉ rest →
      ChoiceCase scope rune rest [rune] .localName (scope ++ slash :: cStr rest) true
  | subSlash : rune = slash → slash ∈ rest →
      ChoiceCase scope rune rest (rune :: (labelScope rest ++ [slash])) .localName
        (scope ++ slash :: cStr rest) true
  | marked {mark rest'} : isShorthand rune = true ∨ rune = slash → rest = mark :: rest' →
      mark = slash ∨ mark = 0x26 →
      ChoiceCase scope rune rest [rune, mark] .localName (scope ++ slash :: cStr rest') true
  | nearbySlash : rune = 0x2c ∨ rune = 0x5f → ¬ Marked rest → slash ∈ rest →
      ChoiceCase scope rune rest (rune :: (labelScope rest ++ [slash])) .localName scope true
  | label {wanted} : isShorthand rune = true → slash ∉ rest →
      ChoiceCase scope rune rest [rune] .fullName wanted true
  | labelSlash : isShorthand rune = true → ¬ (rune = 0x2c ∨ rune = 0x5f) → slash ∈ rest →
      ChoiceCase scope rune rest (rune :: (labelScope rest ++ [slash])) .localName rest true

/-- The bytes of the prefix in front of the edit. -/
def kept (ctx : CompletionCtx) (ch : Choice) : Str :=
  ctx.typed.take (ch.textEditStart - ctx.prefixStartByte)

theorem kept_slashed {ctx : CompletionCtx} {rune : UInt8} {rest : Str}
    (htyped : ctx.typed = rune :: rest) (h : slash ∈ rest) (ch : Choice) :
    kept ctx (slashedChoice ctx rest ch) = rune :: (labelScope rest ++ [slash]) := by
  obtain ⟨scope, n, hs, rfl⟩ := exists_local h
  have hlen : (slashedChoice ctx (scope ++ slash :: n) ch).textEditStart - ctx.prefixStartByte =
      (labelScope (scope ++ slash :: n)).length + 1 + 1 := by
    simp only [slashedChoice]
    omega
  unfold kept
  rw [htyped, hlen, List.take_succ_cons, take_scope_append hs, labelScope_append_slash hs]

/-- The bytes in front of an edit that starts behind the first byte, or at it. -/
theorem kept_one {ctx : CompletionCtx} {rune : UInt8} {rest : Str}
    (htyped : ctx.typed = rune :: rest) {ch : Choice}
    (h : ch.textEditStart = ctx.prefixStartByte + 1) : kept ctx ch = [rune] := by
  unfold kept
  rw [htyped, h, Nat.add_sub_cancel_left, List.take_succ_cons, List.take_zero]

theorem kept_nil {ctx : CompletionCtx} {ch : Choice}
    (h : ch.textEditStart = ctx.prefixStartByte) : kept ctx ch = [] := by
  unfold kept
  rw [h, Nat.sub_self, List.take_zero]

theorem makeFilter_sub (ctx : CompletionCtx) (ch : Choice) {scope : Str}
    (hscope : cStr scope = scope) (h : ch.matchType = .subLabel) :
    (makeFilter ctx ch scope).typed = scope ++ slash :: cStr ch.typed ∧
      (makeFilter ctx ch scope).labelsOnly = true := by
  unfold makeFilter
  rw [h]
  exact ⟨congrArg (· ++ slash :: cStr ch.typed) hscope, rfl⟩

theorem makeFilter_plain (ctx : CompletionCtx) (ch : Choice) (scope : Str)
    (h : ch.matchType = .anySymbol) :
    (makeFilter ctx ch scope).typed = ch.typed ∧
      (makeFilter ctx ch scope).labelsOnly = false := by
  unfold makeFilter
  rw [h]
  exact ⟨rfl, rfl⟩

theorem makeFilter_nearby (ctx : CompletionCtx) (ch : Choice) (scope : Str)
    (h : ch.matchType = .localLabel) :
    (makeFilter ctx ch scope).typed = scope ∧ (makeFilter ctx ch scope).labelsOnly = true := by
  unfold makeFilter
  rw [h]
  exact ⟨rfl, rfl⟩

theorem makeFilter_label (ctx : CompletionCtx) (ch : Choice) (scope : Str)
    (h : ch.matchType = .anyLabel ∨ ch.matchType = .zeroLabel ∨
      ch.matchType = .precedingLabel) :
    (makeFilter ctx ch scope).typed = ch.typed ∧ (makeFilter ctx ch scope).labelsOnly = true := by
  unfold makeFilter
  rcases h with h | h | h <;> rw [h] <;> exact ⟨rfl, rfl⟩

theorem exists_mark {rest : Str} (h : Marked rest) :
    ∃ mark rest', rest = mark :: rest' ∧ (mark = slash ∨ mark = 0x26) := by
  cases rest with
  | nil => rcases h with h | h <;> cases h
  | cons mark rest' =>
      refine ⟨mark, rest', rfl, ?_⟩
      rcases h with h | h
      · exact Or.inr (Option.some.inj h)
      · exact Or.inl (Option.some.inj h)

/-- A mark leads to one case, whatever the shorthand. -/
theorem markedChoice_case {ctx : CompletionCtx} {rune : UInt8} {rest : Str}
    (htyped : ctx.typed = rune :: rest) (hr : isShorthand rune = true ∨ rune = slash)
    (hm : Marked rest) {ch : Choice} (ht : ch.typed = rest) {scope : Str}
    (hscope : cStr scope = scope) :
    ChoiceCase scope rune rest (kept ctx (markedChoice ctx ch)) .localName
      (makeFilter ctx (markedChoice ctx ch) scope).typed
      (makeFilter ctx (markedChoice ctx ch) scope).labelsOnly := by
  obtain ⟨mark, rest', hrest, hmark⟩ := exists_mark hm
  obtain ⟨hwanted, hlabels⟩ := makeFilter_sub ctx (markedChoice ctx ch) hscope rfl
  have hkept : kept ctx (markedChoice ctx ch) = [rune, mark] := by
    unfold kept markedChoice
    rw [htyped, hrest, Nat.add_sub_cancel_left]
    rfl
  have htail : (markedChoice ctx ch).typed = rest' := by
    unfold markedChoice
    rw [ht, hrest]
    rfl
  rw [hwanted, hlabels, hkept, htail]
  exact .marked hr hrest hmark

/-- The cases of `choose`. -/
theorem choose_cases {ctx : CompletionCtx} (hctx : CtxTyped ctx) {rune : UInt8} {rest : Str}
    (htyped : ctx.typed = rune :: rest) {ch : Choice} (h : choose ctx = some ch) {scope : Str}
    (hscope : cStr scope = scope) :
    ChoiceCase scope rune rest (kept ctx ch) ch.formatType (makeFilter ctx ch scope).typed
      (makeFilter ctx ch scope).labelsOnly := by
  obtain ⟨ch₀, h₀, rfl⟩ := Option.map_eq_some_iff.mp h
  cases chooseByRune_cases htyped h₀ with
  | plain hsh hne hmatch hformat ht hedit =>
      obtain ⟨hno, -⟩ | ⟨-, hs, he⟩ | ⟨-, hs, he⟩ := chooseBySlash_cases hctx htyped ch₀
      · exact absurd hmatch hno
      · obtain ⟨hwanted, hlabels⟩ :=
          makeFilter_plain ctx (slashedChoice ctx rest ch₀) scope hmatch
        rw [he, hwanted, hlabels, kept_slashed htyped hs,
          show (slashedChoice ctx rest ch₀).typed = rune :: rest from ht]
        exact .plainSlash hsh hne hs
      · obtain ⟨hwanted, hlabels⟩ := makeFilter_plain ctx ch₀ scope hmatch
        rw [he, hwanted, hlabels, kept_nil hedit, hformat, ht]
        exact .plain hsh hne hs
  | sub hr hmatch hformat ht hedit =>
      obtain ⟨-, hm, he⟩ | ⟨-, hs, he⟩ | ⟨hno, hs, he⟩ := chooseBySlash_cases hctx htyped ch₀
      · exact he ▸ markedChoice_case htyped (Or.inr hr) hm ht hscope
      · obtain ⟨hwanted, hlabels⟩ :=
          makeFilter_sub ctx (slashedChoice ctx rest ch₀) hscope hmatch
        rw [he, hwanted, hlabels, kept_slashed htyped hs,
          show (slashedChoice ctx rest ch₀).typed = rest from ht]
        exact .subSlash hr hs
      · obtain ⟨hwanted, hlabels⟩ := makeFilter_sub ctx ch₀ hscope hmatch
        have hnotmarked : ¬ Marked rest := fun hm => hno ⟨by rw [hmatch]; decide, hm⟩
        rw [he, hwanted, hlabels, kept_one htyped hedit, hformat, ht]
        exact .sub hr hnotmarked hs
  | nearby hr hmatch hformat ht hedit =>
      have hsh : isShorthand rune = true := by rcases hr with rfl | rfl <;> rfl
      obtain ⟨-, hm, he⟩ | ⟨hno, hs, he⟩ | ⟨-, hs, he⟩ := chooseBySlash_cases hctx htyped ch₀
      · exact he ▸ markedChoice_case htyped (Or.inl hsh) hm ht hscope
      · obtain ⟨hwanted, hlabels⟩ :=
          makeFilter_nearby ctx (slashedChoice ctx rest ch₀) scope hmatch
        have hnotmarked : ¬ Marked rest := fun hm => hno ⟨by rw [hmatch]; decide, hm⟩
        rw [he, hwanted, hlabels, kept_slashed htyped hs]
        exact .nearbySlash hr hnotmarked hs
      · obtain ⟨-, hlabels⟩ := makeFilter_nearby ctx ch₀ scope hmatch
        rw [he, hlabels, kept_one htyped hedit, hformat]
        exact .label hsh hs
  | label hsh hr hmatch hformat ht hedit =>
      obtain ⟨-, hm, he⟩ | ⟨-, hs, he⟩ | ⟨-, hs, he⟩ := chooseBySlash_cases hctx htyped ch₀
      · exact he ▸ markedChoice_case htyped (Or.inl hsh) hm ht hscope
      · obtain ⟨hwanted, hlabels⟩ :=
          makeFilter_label ctx (slashedChoice ctx rest ch₀) scope hmatch
        rw [he, hwanted, hlabels, kept_slashed htyped hs,
          show (slashedChoice ctx rest ch₀).typed = rest from ht]
        exact .labelSlash hsh hr hs
      · obtain ⟨-, hlabels⟩ := makeFilter_label ctx ch₀ scope hmatch
        rw [he, hlabels, kept_one htyped hedit, hformat]
        exact .label hsh hs

/-! ## Items -/

/-- An item with the full name, or with the local name of a symbol in the current scope. -/
theorem formatItem_fullName {range : Range} {item : CompletionItem} {entry : CompletionEntry}
    {sym : SymNode} (h : entry ∈ formatItem .fullName range item) (hs : entry.sym = some sym) :
    sym = item.sym ∧
      ((item.isLocal = true ∧ slash ∈ sym.name ∧
          entry.newText = sym.name.drop (labelScope sym.name).length) ∨
        (¬ (item.isLocal = true ∧ slash ∈ sym.name) ∧ entry.newText = sym.name)) := by
  unfold formatItem at h
  dsimp only at h
  split at h
  · rename_i hl
    obtain rfl := List.mem_singleton.mp h
    obtain rfl : item.sym = sym := Option.some.inj hs
    refine ⟨rfl, ?_⟩
    by_cases hroot : item.sym.name = labelScope item.sym.name
    · have hno := (eq_labelScope_iff _).mp hroot
      exact Or.inr ⟨fun hc => hno hc.2, if_pos (decide_eq_true hroot)⟩
    · have hslash : slash ∈ item.sym.name := by
        by_contra hno
        exact hroot ((eq_labelScope_iff _).mpr hno)
      exact Or.inl ⟨hl, hslash, if_neg fun hc => hroot (of_decide_eq_true hc)⟩
  · rename_i hl
    rcases List.mem_append.mp h with h | h
    · split at h
      · obtain rfl := List.mem_singleton.mp h
        obtain rfl : item.sym = sym := Option.some.inj hs
        exact ⟨rfl, Or.inr ⟨fun hc => hl hc.1, rfl⟩⟩
      · exact absurd h List.not_mem_nil
    · split at h
      · obtain rfl := List.mem_singleton.mp h
        cases hs
      · exact absurd h List.not_mem_nil

theorem formatItem_localName {range : Range} {item : CompletionItem} {entry : CompletionEntry}
    {sym : SymNode} (h : entry ∈ formatItem .localName range item) (hs : entry.sym = some sym) :
    sym = item.sym ∧ slash ∈ sym.name ∧
      entry.newText = sym.name.drop ((labelScope sym.name).length + 1) := by
  unfold formatItem at h
  dsimp only at h
  split at h
  · rename_i hlen
    obtain rfl := List.mem_singleton.mp h
    obtain rfl : item.sym = sym := Option.some.inj hs
    refine ⟨rfl, ?_, rfl⟩
    by_contra hno
    rw [labelScope_of_notMem hno] at hlen
    omega
  · exact absurd h List.not_mem_nil

/-- What stands in the document in place of the prefix. -/
def inserted (ctx : CompletionCtx) (ch : Choice) (entry : CompletionEntry) : Str :=
  kept ctx ch ++ entry.newText

/-- A text without the shorthand in front of it. -/
def stripShorthand : Str → Str
  | [] => []
  | rune :: rest => if isShorthand rune then rest else rune :: rest

/-- The text is the full name of the symbol, or its local name in the current scope behind `/`
    or `&`. -/
def NamesOwn (scope : Str) (sym : SymNode) (text : Str) : Prop :=
  text = sym.name ∨ ∃ n, (text = slash :: n ∨ text = 0x26 :: n) ∧ sym.type = .label ∧
    scope ++ slash :: n = sym.name

/-- The prefixes and symbols with which the text does not name the symbol:

    * a prefix `/` with `&` or another slash behind it
    * a prefix `,` or `_` with a slash, for a symbol of another scope than the one typed
    * a prefix without shorthand and slash, for a macro whose name has the current scope -/
def Misnames (typed scope : Str) (sym : SymNode) : Prop :=
  match typed with
  | [] => False
  | rune :: rest =>
    if rune = slash then rest.head? = some 0x26 ∨ slash ∈ rest
    else if rune = 0x2c ∨ rune = 0x5f then
      ¬ Marked rest ∧ slash ∈ rest ∧ labelScope rest ≠ labelScope sym.name
    else
      isShorthand rune = false ∧ slash ∉ rest ∧ sym.type ≠ .label ∧ slash ∈ sym.name ∧
        labelScope sym.name = scope ∧ scope ≠ []

theorem namesOwn_local {scope n : Str} {sym : SymNode} (hname : sym.name = scope ++ slash :: n)
    (hlabel : sym.type = .label) {mark : UInt8} (hmark : mark = slash ∨ mark = 0x26) :
    NamesOwn scope sym (mark :: n) := by
  refine Or.inr ⟨n, ?_, hlabel, hname.symm⟩
  rcases hmark with rfl | rfl
  · exact Or.inl rfl
  · exact Or.inr rfl

/-- With anything between the slash and the local name the text does not name the symbol. -/
theorem not_namesOwn_longer {scope n extra : Str} {sym : SymNode} (hs : slash ∉ scope)
    (hname : sym.name = scope ++ slash :: n) (hextra : extra ≠ []) :
    ¬ NamesOwn scope sym (slash :: (extra ++ n)) := by
  have hlen : 0 < extra.length := List.length_pos_iff.mpr hextra
  rintro (h | ⟨n', htext, -, h⟩)
  · -- the full name starts with a slash only if the scope is empty
    rw [hname] at h
    cases scope with
    | nil =>
        have hl := congrArg List.length h
        simp only [List.length_cons, List.length_append, List.nil_append] at hl
        omega
    | cons ch rest =>
        have hhead : slash = ch := (List.cons.inj h).1
        exact hs (hhead ▸ List.mem_cons_self)
  · rw [hname] at h
    have hn : n' = n := (List.cons.inj (List.append_cancel_left h)).2
    rcases htext with htext | htext
    · have hl := congrArg List.length htext
      rw [hn] at hl
      simp only [List.length_cons, List.length_append] at hl
      omega
    · exact absurd (List.cons.inj htext).1 (by decide)

/-- A text with a slash behind a scope names the symbol only if that is its scope. -/
theorem namesOwn_scoped_iff {scope typed own n : Str} {sym : SymNode}
    (hname : sym.name = own ++ slash :: n) (htyped : typed ≠ []) (hhead : ¬ Marked typed) :
    NamesOwn scope sym (labelScope typed ++ slash :: n) ↔ labelScope typed = own := by
  constructor
  · rintro (h | ⟨n', htext, -, -⟩)
    · rw [hname] at h
      exact List.append_cancel_right h
    · -- the text would start with a slash or `&`, and so would the prefix
      cases typed with
      | nil => exact absurd rfl htyped
      | cons ch rest =>
          have hne : ch ≠ slash := fun he => hhead (Or.inr (congrArg some he))
          rw [labelScope_cons, if_neg hne, List.cons_append] at htext
          rcases htext with htext | htext
          · exact absurd (List.cons.inj htext).1 hne
          · exact absurd (Or.inl (congrArg some (List.cons.inj htext).1)) hhead
  · intro h
    exact Or.inl (by rw [hname, h])

theorem misnames_plain {scope : Str} {rune : UInt8} {rest : Str} {sym : SymNode}
    (hne : rune ≠ slash) (hnearby : ¬ (rune = 0x2c ∨ rune = 0x5f)) :
    Misnames (rune :: rest) scope sym ↔
      (isShorthand rune = false ∧ slash ∉ rest ∧ sym.type ≠ .label ∧ slash ∈ sym.name ∧
        labelScope sym.name = scope ∧ scope ≠ []) := by
  dsimp only [Misnames]
  rw [if_neg hne, if_neg hnearby]

theorem misnames_nearby {scope : Str} {rune : UInt8} {rest : Str} {sym : SymNode}
    (hnearby : rune = 0x2c ∨ rune = 0x5f) :
    Misnames (rune :: rest) scope sym ↔
      (¬ Marked rest ∧ slash ∈ rest ∧ labelScope rest ≠ labelScope sym.name) := by
  have hne : rune ≠ slash := by rcases hnearby with rfl | rfl <;> decide
  dsimp only [Misnames]
  rw [if_neg hne, if_pos hnearby]

theorem misnames_sub {scope : Str} {rest : Str} {sym : SymNode} :
    Misnames (slash :: rest) scope sym ↔ rest.head? = some 0x26 ∨ slash ∈ rest := by
  dsimp only [Misnames]
  rw [if_pos rfl]

/-- Behind a shorthand, only `,` and `_` with a slash can go wrong. -/
theorem not_misnames_shorthand {scope : Str} {rune : UInt8} {rest : Str} {sym : SymNode}
    (hsh : isShorthand rune = true)
    (h : rune = 0x2c ∨ rune = 0x5f → Marked rest ∨ slash ∉ rest) :
    ¬ Misnames (rune :: rest) scope sym := by
  have hne : rune ≠ slash := by
    rintro rfl
    exact absurd hsh (by decide)
  by_cases hnearby : rune = 0x2c ∨ rune = 0x5f
  · rw [misnames_nearby hnearby]
    rintro ⟨hm, hs, -⟩
    exact (h hnearby).elim hm fun hno => hno hs
  · rw [misnames_plain hne hnearby, hsh]
    rintro ⟨hf, -⟩
    cases hf

theorem stripShorthand_cons {rune : UInt8} (rest : Str) (h : isShorthand rune = true) :
    stripShorthand (rune :: rest) = rest := if_pos h

theorem stripShorthand_other {rune : UInt8} (rest : Str) (h : isShorthand rune = false) :
    stripShorthand (rune :: rest) = rune :: rest := if_neg (by rw [h]; exact Bool.false_ne_true)

/-- A prefix without shorthand and slash: the item has the full name, or `/` and the local name
    of a symbol in the current scope. -/
theorem plain_namesOwn_iff {scope newText : Str} {rune : UInt8} {rest : Str} {isLocal : Bool}
    {sym : SymNode} (hsh : isShorthand rune = false) (hne : rune ≠ slash) (hs : slash ∉ rest)
    (hwanted : rune :: rest <+: sym.name)
    (hlocal : isLocal = decide (labelScope sym.name = scope))
    (hfull : (isLocal = true ∧ slash ∈ sym.name ∧
        newText = sym.name.drop (labelScope sym.name).length) ∨
      (¬ (isLocal = true ∧ slash ∈ sym.name) ∧ newText = sym.name)) :
    NamesOwn scope sym (stripShorthand newText) ↔ ¬ Misnames (rune :: rest) scope sym := by
  have hnearby : ¬ (rune = 0x2c ∨ rune = 0x5f) := by
    rintro (rfl | rfl) <;> exact absurd hsh (by decide)
  rw [misnames_plain hne hnearby]
  obtain ⟨hl, hslash, rfl⟩ | ⟨hno, rfl⟩ := hfull
  · have hown : labelScope sym.name = scope := of_decide_eq_true (hlocal ▸ hl)
    obtain ⟨own, n, ho, hname⟩ := exists_local hslash
    have hscope : own = scope := by
      rw [hname, labelScope_append_slash ho] at hown
      exact hown
    subst hscope
    have htext : sym.name.drop (labelScope sym.name).length = slash :: n := by
      rw [hname]
      exact (drop_scope_append ho n).1
    rw [htext, stripShorthand_other n (by decide)]
    constructor
    · rintro (h | ⟨-, -, hlabel, -⟩) ⟨-, -, htype, -, -, hempty⟩
      · rw [hname] at h
        have hnil : [] ++ slash :: n = own ++ slash :: n := h
        exact hempty (List.append_cancel_right hnil).symm
      · exact htype hlabel
    · intro h
      by_cases hlabel : sym.type = .label
      · exact namesOwn_local hname hlabel (Or.inl rfl)
      · by_cases hempty : own = []
        · exact Or.inl (by rw [hname, hempty]; rfl)
        · exact absurd ⟨hsh, hs, hlabel, hslash, hown, hempty⟩ h
  · obtain ⟨more, hname⟩ := hwanted
    have hstrip : stripShorthand sym.name = sym.name := by
      rw [← hname]
      exact stripShorthand_other _ hsh
    refine iff_of_true (Or.inl hstrip) ?_
    rintro ⟨-, -, -, hslash, hown, -⟩
    exact hno ⟨by rw [hlocal]; exact decide_eq_true hown, hslash⟩

/-- Two marks in front of a local name: the shorthand takes the first with it, a slash does not. -/
theorem marked_namesOwn_iff {scope n : Str} {rune mark : UInt8} {sym : SymNode}
    (hr : isShorthand rune = true ∨ rune = slash) (hmark : mark = slash ∨ mark = 0x26)
    (hscope : slash ∉ scope) (hname : sym.name = scope ++ slash :: n) (hlabel : sym.type = .label)
    (rest : Str) :
    NamesOwn scope sym (stripShorthand ([rune, mark] ++ n)) ↔
      ¬ Misnames (rune :: mark :: rest) scope sym := by
  rcases hr with hsh | rfl
  · rw [List.cons_append, stripShorthand_cons _ hsh, List.singleton_append]
    refine iff_of_true (namesOwn_local hname hlabel hmark)
      (not_misnames_shorthand hsh fun _ => Or.inl ?_)
    rcases hmark with rfl | rfl
    · exact Or.inr rfl
    · exact Or.inl rfl
  · rw [misnames_sub, List.cons_append, stripShorthand_other _ (by decide)]
    refine iff_of_false (not_namesOwn_longer hscope hname (List.cons_ne_nil _ _)) fun hc => hc ?_
    rcases hmark with rfl | rfl
    · exact Or.inr List.mem_cons_self
    · exact Or.inl rfl

/-- The full name, which a local label gives from its slash on. -/
theorem namesOwn_full {scope newText : Str} {isLocal : Bool} {sym : SymNode}
    (hlabel : sym.type = .label) (hlocal : isLocal = decide (labelScope sym.name = scope))
    (hfull : (isLocal = true ∧ slash ∈ sym.name ∧
        newText = sym.name.drop (labelScope sym.name).length) ∨
      (¬ (isLocal = true ∧ slash ∈ sym.name) ∧ newText = sym.name)) :
    NamesOwn scope sym newText := by
  obtain ⟨hl, hslash, rfl⟩ | ⟨-, rfl⟩ := hfull
  · obtain ⟨own, n, ho, hname⟩ := exists_local hslash
    have hown : own = scope := by
      have h : labelScope sym.name = scope := of_decide_eq_true (hlocal ▸ hl)
      rwa [hname, labelScope_append_slash ho] at h
    subst hown
    have htext : sym.name.drop (labelScope sym.name).length = slash :: n := by
      rw [hname]
      exact (drop_scope_append ho n).1
    rw [htext]
    exact namesOwn_local hname hlabel (Or.inl rfl)
  · exact Or.inl rfl

/-- One item: its text names its symbol exactly outside the cases of `Misnames`. -/
theorem item_namesOwn_iff {scope wanted newText head : Str} {rune : UInt8} {rest : Str}
    {format : FormatType} {labels isLocal : Bool} {sym : SymNode} (hscope : slash ∉ scope)
    (hcase : ChoiceCase scope rune rest head format wanted labels)
    (hwanted : wanted <+: sym.name) (hlabel : labels = true → sym.type = .label)
    (hlocal : isLocal = decide (labelScope sym.name = scope))
    (hfull : format = .fullName → (isLocal = true ∧ slash ∈ sym.name ∧
        newText = sym.name.drop (labelScope sym.name).length) ∨
      (¬ (isLocal = true ∧ slash ∈ sym.name) ∧ newText = sym.name))
    (hshort : format = .localName → slash ∈ sym.name ∧
      newText = sym.name.drop ((labelScope sym.name).length + 1)) :
    NamesOwn scope sym (stripShorthand (head ++ newText)) ↔
      ¬ Misnames (rune :: rest) scope sym := by
  -- the parts of a name of which only the local name is inserted
  have hparts : format = .localName → ∃ own n, slash ∉ own ∧ sym.name = own ++ slash :: n ∧
      labelScope sym.name = own ∧ newText = n := by
    intro hf
    obtain ⟨hslash, htext⟩ := hshort hf
    obtain ⟨own, n, ho, hname⟩ := exists_local hslash
    refine ⟨own, n, ho, hname, by rw [hname, labelScope_append_slash ho], ?_⟩
    rw [htext, hname]
    exact (drop_scope_append ho n).2
  -- a filter on the current scope and a slash
  have hsub : ∀ tail own n, slash ∉ own → sym.name = own ++ slash :: n →
      scope ++ slash :: tail <+: sym.name → own = scope := by
    intro tail own n ho hname hw
    have h := labelScope_of_startsWith hw (by simp)
    rwa [hname, labelScope_append_slash ho, labelScope_append_slash hscope] at h
  cases hcase with
  | plain hsh hne hs => exact plain_namesOwn_iff hsh hne hs hwanted hlocal (hfull rfl)
  | plainSlash hsh hne hs =>
      obtain ⟨own, n, ho, hname, hown, rfl⟩ := hparts rfl
      have hscoped : own = rune :: labelScope rest := by
        rw [← hown, labelScope_of_startsWith hwanted (List.mem_cons_of_mem _ hs), labelScope_cons,
          if_neg hne]
      have htext : rune :: (labelScope rest ++ [slash]) ++ newText = sym.name := by
        rw [hname, hscoped]
        simp
      have hnearby : ¬ (rune = 0x2c ∨ rune = 0x5f) := by
        rintro (rfl | rfl) <;> exact absurd hsh (by decide)
      rw [misnames_plain hne hnearby]
      refine iff_of_true (Or.inl ?_) fun hc => hc.2.1 hs
      rw [List.cons_append, stripShorthand_other _ hsh]
      exact htext
  | sub hr hm hs =>
      subst hr
      obtain ⟨own, n, ho, hname, -, rfl⟩ := hparts rfl
      obtain rfl := hsub _ own newText ho hname hwanted
      rw [misnames_sub, List.singleton_append, stripShorthand_other _ (by decide)]
      refine iff_of_true (namesOwn_local hname (hlabel rfl) (Or.inl rfl)) ?_
      rintro (hamp | hslash)
      · exact hm (Or.inl hamp)
      · exact hs hslash
  | subSlash hr hs =>
      subst hr
      obtain ⟨own, n, ho, hname, -, rfl⟩ := hparts rfl
      obtain rfl := hsub _ own newText ho hname hwanted
      rw [misnames_sub, List.cons_append, stripShorthand_other _ (by decide)]
      exact iff_of_false (not_namesOwn_longer ho hname (by simp)) fun hc => hc (Or.inr hs)
  | @marked mark rest' hr hrest hmark =>
      subst hrest
      obtain ⟨own, n, ho, hname, -, rfl⟩ := hparts rfl
      obtain rfl := hsub _ own newText ho hname hwanted
      exact marked_namesOwn_iff hr hmark ho hname (hlabel rfl) rest'
  | nearbySlash hr hm hs =>
      obtain ⟨own, n, ho, hname, hown, rfl⟩ := hparts rfl
      have hsh : isShorthand rune = true := by rcases hr with rfl | rfl <;> rfl
      rw [List.cons_append, stripShorthand_cons _ hsh, List.append_assoc, List.singleton_append,
        namesOwn_scoped_iff hname (List.ne_nil_of_mem hs) hm, misnames_nearby hr, hown]
      constructor
      · rintro he ⟨-, -, hne⟩
        exact hne he
      · intro h
        by_contra hne
        exact h ⟨hm, hs, hne⟩
  | label hsh hs =>
      rw [List.singleton_append, stripShorthand_cons _ hsh]
      exact iff_of_true (namesOwn_full (hlabel rfl) hlocal (hfull rfl))
        (not_misnames_shorthand hsh fun _ => Or.inr hs)
  | labelSlash hsh hr hs =>
      obtain ⟨own, n, ho, hname, hown, rfl⟩ := hparts rfl
      have hscoped : own = labelScope wanted := by
        rw [← hown, labelScope_of_startsWith hwanted hs]
      rw [List.cons_append, stripShorthand_cons _ hsh]
      refine iff_of_true (Or.inl ?_) (not_misnames_shorthand hsh fun hc => absurd hc hr)
      rw [hname, hscoped]
      simp

/-! ## The reply -/

theorem completionCtx_typed {E : Env} {c : AnalyzerCtx} {docs : Docs} {path : Str}
    {position : Position} {ctx : CompletionCtx}
    (h : completionCtx E c docs path position = some ctx) : CtxTyped ctx := by
  unfold completionCtx at h
  split at h
  · cases h
  · dsimp only at h
    split at h
    · cases h
    · split at h
      · cases h
      · split at h
        · cases h
        · obtain ⟨src, -, rfl⟩ := Option.map_eq_some_iff.mp h
          exact ⟨rfl⟩

theorem choose_typed {ctx : CompletionCtx} {ch : Choice} (h : choose ctx = some ch) :
    ∃ rune rest, ctx.typed = rune :: rest := by
  cases htyped : ctx.typed with
  | nil =>
      simp only [choose, chooseByRune, htyped, Option.map_none] at h
      cases h
  | cons rune rest => exact ⟨rune, rest, rfl⟩

/-- An item of the reply comes from a candidate. -/
theorem mem_reply {u : Utf8proc} {c : AnalyzerCtx} {ctx : CompletionCtx} {ch : Choice}
    {entries : List CompletionEntry} {entry : CompletionEntry} (hch : choose ctx = some ch)
    (h : buildCompletionList u c ctx = some (some entries)) (hentry : entry ∈ entries) :
    ∃ item range, entry ∈ formatItem ch.formatType range item ∧
      matchSymbol item.sym (makeFilter ctx ch (currentScope c ctx)) = true ∧
      item.isLocal = decide (labelScope item.sym.name = currentScope c ctx) := by
  unfold buildCompletionList at h
  rw [hch] at h
  obtain ⟨map, hmap, he⟩ := Option.map_eq_some_iff.mp h
  obtain rfl := Option.some.inj he
  have hcandidates := visitSymbolsFromRoot_candidates hmap
  obtain ⟨item, hitem, hformat⟩ := List.mem_flatMap.mp hentry
  obtain ⟨⟨key, value⟩, hkey, rfl⟩ := List.mem_map.mp hitem
  have hcandidate := hcandidates key value ((Table.mem_entries_iff map key value).mp hkey)
  exact ⟨value, _, hformat, hcandidate.matched, hcandidate.isLocal⟩

/-- The items of a reply, one by one. -/
theorem entry_namesOwn_iff {u : Utf8proc} {c : AnalyzerCtx} {ctx : CompletionCtx} {ch : Choice}
    {entries : List CompletionEntry} {entry : CompletionEntry} {sym : SymNode}
    (hctx : CtxTyped ctx) (hch : choose ctx = some ch)
    (h : buildCompletionList u c ctx = some (some entries)) (hentry : entry ∈ entries)
    (hsym : entry.sym = some sym) :
    NamesOwn (currentScope c ctx) sym (stripShorthand (inserted ctx ch entry)) ↔
      ¬ Misnames ctx.typed (currentScope c ctx) sym := by
  obtain ⟨rune, rest, htyped⟩ := choose_typed hch
  obtain ⟨item, range, hformat, hmatch, hlocal⟩ := mem_reply hch h hentry
  have hcase := choose_cases hctx htyped hch (cStr_currentScope c ctx)
  obtain ⟨hwanted, hlabel⟩ := matchSymbol_spec hmatch
  -- an item is written for the symbol of its candidate
  have hown : sym = item.sym := by
    cases hf : ch.formatType with
    | fullName => exact (formatItem_fullName (hf ▸ hformat) hsym).1
    | localName => exact (formatItem_localName (hf ▸ hformat) hsym).1
  subst hown
  rw [htyped]
  refine item_namesOwn_iff (slash_notMem_currentScope c ctx) hcase hwanted hlabel hlocal
    (fun hf => ?_) (fun hf => ?_)
  · exact (formatItem_fullName (hf ▸ hformat) hsym).2
  · exact (formatItem_localName (hf ▸ hformat) hsym).2

/-- In every reachable state, for every text of the documents and every cursor, completion
    replies, and an item written for a symbol names it exactly if prefix and symbol are in none of
    the cases of `Misnames`. -/
theorem completion_names_own_iff {E : Env} {m : Machine}
    (h : Reachable (step E) Machine.init m) {docs : Docs} {path : Str} {position : Position}
    {ctx : CompletionCtx}
    (hctx : completionCtx E m.analyzer.current docs path position = some ctx) :
    ∃ reply, handleCompletion E m.analyzer.current docs path position = some reply ∧
      ∀ ch entries, choose ctx = some ch → reply = some entries → ∀ entry ∈ entries,
        ∀ sym, entry.sym = some sym →
          (NamesOwn (currentScope m.analyzer.current ctx) sym
              (stripShorthand (inserted ctx ch entry)) ↔
            ¬ Misnames ctx.typed (currentScope m.analyzer.current ctx) sym) := by
  have hreply : handleCompletion E m.analyzer.current docs path position =
      buildCompletionList E.utf8proc m.analyzer.current ctx := by
    unfold handleCompletion
    rw [hctx]
  have hacyclic := (reachable_graphOK h).current.acyclic
  have hsome : (buildCompletionList E.utf8proc m.analyzer.current ctx).isSome := by
    unfold buildCompletionList
    split
    · rfl
    · rw [Option.isSome_map]
      exact visitSymbolsFromRoot_isSome hacyclic _ _ _
  obtain ⟨reply, hbuild⟩ := Option.isSome_iff_exists.mp hsome
  refine ⟨reply, hreply.trans hbuild, fun ch entries hch hentries entry hentry sym hsym => ?_⟩
  subst hentries
  exact entry_namesOwn_iff (completionCtx_typed hctx) hch hbuild hentry hsym

/-! ## A slash behind `,` -/

/-- `typed` stands behind the label `foo/bar`. -/
def nearbyDocs (typed : Str) : Docs :=
  Table.empty.put (ascii "a") (ascii "@foo &bar " ++ typed)

def nearbyLabel : AsmSym where
  type := .label
  name := ascii "foo/bar"
  nameIsGenerated := false
  id := 1
  region := ⟨⟨1, ascii "a"⟩, ⟨⟨1, 6, 5⟩, ⟨1, 10, 9⟩⟩⟩

def nearbyRun (docs : Docs) : List Label :=
  [.start docs, .enter, .event (.fopen docs ⟨1, ascii "a"⟩ none),
    .event (.putSymbol 256 nearbyLabel []), .asmDone true, .chessDone, .leave, .finish]

/-- The symbols of a reply at the end of `typed`, and what their items leave in the document. -/
def nearbyReply (typed : Str) (m : Machine) : Option (List (Option Str × Str)) :=
  (completionCtx asciiEnv m.analyzer.current (nearbyDocs typed) (ascii "a")
    ⟨0, 10 + typed.length⟩).bind fun ctx =>
      (choose ctx).bind fun ch =>
        (handleCompletion asciiEnv m.analyzer.current (nearbyDocs typed) (ascii "a")
          ⟨0, 10 + typed.length⟩).bind fun reply =>
            reply.map fun entries => entries.map fun entry =>
              (entry.sym.map SymNode.name, stripShorthand (inserted ctx ch entry))

theorem nearbyReply_some {typed name text : Str}
    (h : (run (step asciiEnv) Machine.init (nearbyRun (nearbyDocs typed))).bind
      (nearbyReply typed) = some [(some name, text)]) :
    ∃ m ctx ch entry sym,
      run (step asciiEnv) Machine.init (nearbyRun (nearbyDocs typed)) = some m ∧
      completionCtx asciiEnv m.analyzer.current (nearbyDocs typed) (ascii "a")
        ⟨0, 10 + typed.length⟩ = some ctx ∧
      choose ctx = some ch ∧
      handleCompletion asciiEnv m.analyzer.current (nearbyDocs typed) (ascii "a")
        ⟨0, 10 + typed.length⟩ = some (some [entry]) ∧
      entry.sym = some sym ∧ sym.name = name ∧ stripShorthand (inserted ctx ch entry) = text := by
  obtain ⟨m, hm, h⟩ := Option.bind_eq_some_iff.mp h
  unfold nearbyReply at h
  obtain ⟨ctx, hctx, h⟩ := Option.bind_eq_some_iff.mp h
  obtain ⟨ch, hch, h⟩ := Option.bind_eq_some_iff.mp h
  obtain ⟨reply, hreply, h⟩ := Option.bind_eq_some_iff.mp h
  obtain ⟨entries, hentries, hmap⟩ := Option.map_eq_some_iff.mp h
  obtain ⟨entry, hentry, he⟩ := List.map_eq_singleton_iff.mp hmap
  rw [hentries, hentry] at hreply
  obtain ⟨hname, htext⟩ := Prod.mk.injEq _ _ _ _ |>.mp he
  obtain ⟨sym, hsym, hname⟩ := Option.map_eq_some_iff.mp hname
  exact ⟨m, ctx, ch, entry, sym, hm, hctx, hch, hreply, hsym, hname, htext⟩

/-- `,foo/` is completed to `,foo/bar`. -/
theorem completion_names_own_same_scope :
    ∃ m ctx ch entry sym,
      run (step asciiEnv) Machine.init (nearbyRun (nearbyDocs (ascii ",foo/"))) = some m ∧
      completionCtx asciiEnv m.analyzer.current (nearbyDocs (ascii ",foo/")) (ascii "a") ⟨0, 15⟩ =
        some ctx ∧
      choose ctx = some ch ∧ entry.sym = some sym ∧
      stripShorthand (inserted ctx ch entry) = ascii "foo/bar" ∧
      ¬ Misnames ctx.typed (currentScope m.analyzer.current ctx) sym := by
  have hout : (run (step asciiEnv) Machine.init (nearbyRun (nearbyDocs (ascii ",foo/")))).bind
      (nearbyReply (ascii ",foo/")) = some [(some (ascii "foo/bar"), ascii "foo/bar")] := by
    decide
  obtain ⟨m, ctx, ch, entry, sym, hm, hctx, hch, hreply, hsym, hname, htext⟩ :=
    nearbyReply_some hout
  refine ⟨m, ctx, ch, entry, sym, hm, hctx, hch, hsym, htext, ?_⟩
  obtain ⟨reply, hr, hitems⟩ := completion_names_own_iff ⟨_, hm⟩ hctx
  have hlist : reply = some [entry] := Option.some.inj (hr.symm.trans hreply)
  exact (hitems ch [entry] hch hlist entry List.mem_cons_self sym hsym).mp
    (Or.inl (htext.trans hname.symm))

/-- `,zed/` in the scope `foo` is completed to `,zed/bar`, for the symbol `foo/bar`. -/
theorem completion_names_own_fails :
    ∃ m ctx ch entry sym,
      run (step asciiEnv) Machine.init (nearbyRun (nearbyDocs (ascii ",zed/"))) = some m ∧
      completionCtx asciiEnv m.analyzer.current (nearbyDocs (ascii ",zed/")) (ascii "a") ⟨0, 15⟩ =
        some ctx ∧
      choose ctx = some ch ∧
      handleCompletion asciiEnv m.analyzer.current (nearbyDocs (ascii ",zed/")) (ascii "a")
        ⟨0, 15⟩ = some (some [entry]) ∧
      entry.sym = some sym ∧ sym.name = ascii "foo/bar" ∧
      stripShorthand (inserted ctx ch entry) = ascii "zed/bar" ∧
      ¬ NamesOwn (currentScope m.analyzer.current ctx) sym
        (stripShorthand (inserted ctx ch entry)) := by
  have hout : (run (step asciiEnv) Machine.init (nearbyRun (nearbyDocs (ascii ",zed/")))).bind
      (nearbyReply (ascii ",zed/")) = some [(some (ascii "foo/bar"), ascii "zed/bar")] := by
    decide
  obtain ⟨m, ctx, ch, entry, sym, hm, hctx, hch, hreply, hsym, hname, htext⟩ :=
    nearbyReply_some hout
  refine ⟨m, ctx, ch, entry, sym, hm, hctx, hch, hreply, hsym, hname, htext, ?_⟩
  rw [htext]
  rintro (h | ⟨n, h | h, -⟩)
  · rw [hname] at h
    exact absurd h (by decide)
  · exact absurd (List.cons.inj h).1 (by decide)
  · exact absurd (List.cons.inj h).1 (by decide)

end BuxnLs.Analysis
