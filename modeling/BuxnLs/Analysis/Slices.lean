/-
  The line array with its `int` fields. As long as the array is below 2^31 lines at each first
  split, every file keeps the index range at which its lines were put (`TableExact`), so each
  call returns the lines of that file's content, computed now or earlier, and no call moves the
  lines of another file. A first split beyond that stores an index that has wrapped: it may be
  negative, which even means "not split yet" (`slices_exact_iff`). `Represents` ties the table
  to the analyzer, whose counters are natural numbers.
-/
import BuxnLs.Analysis.Bounds
import BuxnLs.Lib.Run
import BuxnLs.Model.Slices

namespace BuxnLs.Analysis

open BuxnLs.Lib BuxnLs.Model

/-! ## One call -/

theorem split_unknown {t : LineTable} {f : Str} (hf : t.files.find? f = none) :
    t.split f = (t, none) := by
  simp only [LineTable.split, hf]

theorem split_cached {t : LineTable} {f : Str} {file : SplitState}
    (hf : t.files.find? f = some file) (hfirst : 0 ≤ file.firstLineIndex) :
    t.split f = (t, some ⟨file.firstLineIndex, file.numLines⟩) := by
  simp only [LineTable.split, hf, ge_iff_le, if_pos hfirst]

/-- What the first split of a file leaves, and the slice that it returns. -/
def splitFresh (t : LineTable) (f : Str) (file : SplitState) : LineTable × LineSlice :=
  let slice : LineSlice := ⟨wrapInt t.lines.length, wrapInt (splitFile file.content).length⟩
  ({ lines := t.lines ++ splitFile file.content
     files := t.files.put f
       { file with firstLineIndex := slice.lines, numLines := slice.numLines }
     placed := t.placed.put f t.lines.length }, slice)

theorem split_fresh {t : LineTable} {f : Str} {file : SplitState}
    (hf : t.files.find? f = some file) (hfirst : file.firstLineIndex < 0) :
    t.split f = ((splitFresh t f file).1, some (splitFresh t f file).2) := by
  have harray := splitFileSlice_array file.content t.lines
  have hcount := splitFileSlice_numLines file.content t.lines
  have hindex : (splitFileSlice file.content t.lines).2.lines = wrapInt t.lines.length := rfl
  simp only [LineTable.split, hf, ge_iff_le, if_neg (not_le.mpr hfirst)]
  unfold splitFresh
  rw [← harray, ← hcount, ← hindex]

/-- The range where a list stands in the middle of the array. -/
theorem range_middle {t : LineTable} {before ls after : List Line}
    (h : t.lines = before ++ ls ++ after) : t.range ⟨before.length, ls.length⟩ = some ls := by
  unfold LineTable.range
  rw [if_pos, h, Int.toNat_natCast, Int.toNat_natCast, List.append_assoc, List.drop_left,
    List.take_left]
  refine ⟨Int.natCast_nonneg _, Int.natCast_nonneg _, ?_⟩
  rw [h, List.length_append, List.length_append]
  dsimp only
  omega

/-- What a slice points to stays when the array grows. -/
theorem range_grow {t t' : LineTable} (hlines : t.lines <+: t'.lines) {slice : LineSlice}
    {ls : List Line} (h : t.range slice = some ls) : t'.range slice = some ls := by
  obtain ⟨more, hmore⟩ := hlines
  unfold LineTable.range at h ⊢
  split at h
  · rename_i hin
    have hlen : t'.lines.length = t.lines.length + more.length := by
      rw [← hmore, List.length_append]
    rw [if_pos ⟨hin.1, hin.2.1, by omega⟩, ← hmore, List.drop_append_of_le_length (by omega),
      List.take_append_of_le_length (by rw [List.length_drop]; omega)]
    exact h
  · cases h

theorem split_lines (t : LineTable) (f : Str) : t.lines <+: (t.split f).1.lines := by
  cases hf : t.files.find? f with
  | none => simp only [split_unknown hf, List.prefix_rfl]
  | some file =>
      rcases Int.lt_or_le file.firstLineIndex 0 with hfirst | hfirst
      · rw [split_fresh hf hfirst]
        exact List.prefix_append _ _
      · simp only [split_cached hf hfirst, List.prefix_rfl]

/-- No call changes the lines of another file. -/
structure OthersKept (t : LineTable) (f : Str) : Prop where
  files : ∀ g, g ≠ f → (t.split f).1.files.find? g = t.files.find? g
  placed : ∀ g, g ≠ f → (t.split f).1.placed.find? g = t.placed.find? g
  lines : ∀ slice ls, t.range slice = some ls → (t.split f).1.range slice = some ls

theorem split_others (t : LineTable) (f : Str) : OthersKept t f := by
  refine ⟨fun g hg => ?_, fun g hg => ?_, fun slice ls h => range_grow (split_lines t f) h⟩
  · cases hf : t.files.find? f with
    | none => rw [split_unknown hf]
    | some file =>
        rcases Int.lt_or_le file.firstLineIndex 0 with hfirst | hfirst
        · rw [split_fresh hf hfirst]
          exact Table.find?_put_ne _ _ (Ne.symm hg)
        · rw [split_cached hf hfirst]
  · cases hf : t.files.find? f with
    | none => rw [split_unknown hf]
    | some file =>
        rcases Int.lt_or_le file.firstLineIndex 0 with hfirst | hfirst
        · rw [split_fresh hf hfirst]
          exact Table.find?_put_ne _ _ (Ne.symm hg)
        · rw [split_cached hf hfirst]

/-! ## Every call of a run -/

/-- The call returns the index range at which the lines of the file stand, and they are those of
    its content. -/
structure ReturnsLines (t : LineTable) (f content : Str) : Prop where
  slice : ∃ first : Nat, (t.split f).1.placed.find? f = some first ∧
    (t.split f).2 = some ⟨first, (splitFile content).length⟩ ∧
    (t.split f).1.range ⟨first, (splitFile content).length⟩ = some (splitFile content)

/-- What a call of `buxn_ls_analyzer_split_file` is to do; the other operations return nothing. -/
def SplitExact (t : LineTable) : TableOp → Prop
  | .split f =>
    (∀ file, t.files.find? f = some file → ReturnsLines t f file.content) ∧ OthersKept t f
  | _ => True

/-- At the first split of a file the index and the number of its lines are an `int`. -/
def SplitFits (t : LineTable) : TableOp → Prop
  | .split f => ∀ file, t.files.find? f = some file → file.firstLineIndex < 0 →
    t.lines.length < 2 ^ 31 ∧ (splitFile file.content).length < 2 ^ 31
  | _ => True

/-- A first split is right exactly when it fits. -/
theorem returnsLines_fresh_iff {t : LineTable} {f : Str} {file : SplitState}
    (hf : t.files.find? f = some file) (hfirst : file.firstLineIndex < 0) :
    ReturnsLines t f file.content ↔
      t.lines.length < 2 ^ 31 ∧ (splitFile file.content).length < 2 ^ 31 := by
  have hindex := wrapInt_eq_self_iff (Int.natCast_nonneg t.lines.length)
  have hcount := wrapInt_eq_self_iff (Int.natCast_nonneg (splitFile file.content).length)
  have hplaced : (splitFresh t f file).1.placed.find? f = some t.lines.length :=
    Table.find?_put_self _ _ _
  have hrange : (splitFresh t f file).1.range
      ⟨t.lines.length, (splitFile file.content).length⟩ = some (splitFile file.content) := by
    have hlines : (splitFresh t f file).1.lines = t.lines ++ splitFile file.content ++ [] :=
      (List.append_nil _).symm
    exact range_middle hlines
  constructor
  · rintro ⟨first, hat, hslice, -⟩
    rw [split_fresh hf hfirst] at hat hslice
    obtain rfl : t.lines.length = first := Option.some.inj (hplaced.symm.trans hat)
    simp only [splitFresh, Option.some.injEq, LineSlice.mk.injEq] at hslice
    rw [hindex, hcount] at hslice
    omega
  · intro hfits
    refine ⟨t.lines.length, ?_⟩
    rw [split_fresh hf hfirst]
    refine ⟨hplaced, ?_, hrange⟩
    unfold splitFresh
    rw [hindex.mpr (by omega), hcount.mpr (by omega)]

/-- Every file has not been split, or keeps the range of its lines. -/
def TableExact (t : LineTable) : Prop :=
  ∀ f file, t.files.find? f = some file →
    file.firstLineIndex = -1 ∨
      ∃ first : Nat, t.placed.find? f = some first ∧ file.firstLineIndex = first ∧
        file.numLines = (splitFile file.content).length ∧
        t.range ⟨first, (splitFile file.content).length⟩ = some (splitFile file.content)

theorem TableExact.returns {t : LineTable} (h : TableExact t) {f : Str} {file : SplitState}
    (hf : t.files.find? f = some file) (hfits : SplitFits t (.split f)) :
    ReturnsLines t f file.content := by
  rcases h f file hf with hfirst | ⟨first, hplaced, hfirst, hnum, hrange⟩
  · have hneg : file.firstLineIndex < 0 := by omega
    exact (returnsLines_fresh_iff hf hneg).mpr (hfits file hf hneg)
  · refine ⟨first, ?_⟩
    rw [split_cached hf (by omega)]
    exact ⟨hplaced, by rw [hfirst, hnum], hrange⟩

theorem TableExact.split {t : LineTable} (h : TableExact t) {f : Str}
    (hfits : SplitFits t (.split f)) : TableExact (t.split f).1 := by
  have hothers := split_others t f
  cases hf : t.files.find? f with
  | none =>
      rw [split_unknown hf]
      exact h
  | some file =>
      rcases Int.lt_or_le file.firstLineIndex 0 with hneg | hpos
      · obtain ⟨hindex, hcount⟩ := hfits file hf hneg
        intro g file' hg
        by_cases hgf : g = f
        · subst hgf
          obtain ⟨first, hplaced, hslice, hrange⟩ :=
            (returnsLines_fresh_iff hf hneg).mpr ⟨hindex, hcount⟩
          rw [split_fresh hf hneg] at hg hslice
          have hfile : file' = { file with
              firstLineIndex := wrapInt t.lines.length
              numLines := wrapInt (splitFile file.content).length } :=
            Option.some.inj (hg.symm.trans (Table.find?_put_self _ _ _))
          simp only [splitFresh, Option.some.injEq, LineSlice.mk.injEq] at hslice
          subst hfile
          exact Or.inr ⟨first, hplaced, hslice.1, hslice.2, hrange⟩
        · rw [hothers.files g hgf] at hg
          rcases h g file' hg with hfirst | ⟨first, hplaced, hfirst, hnum, hrange⟩
          · exact Or.inl hfirst
          · exact Or.inr ⟨first, (hothers.placed g hgf).trans hplaced, hfirst, hnum,
              hothers.lines _ _ hrange⟩
      · rw [split_cached hf hpos]
        exact h

theorem TableExact.openFile {t : LineTable} (h : TableExact t) (f content : Str) :
    TableExact (t.openFile f content) := by
  unfold LineTable.openFile
  split
  · exact h
  · intro g file hg
    rcases Table.find?_put_eq_some.mp hg with ⟨-, rfl⟩ | ⟨-, hg⟩
    · exact Or.inl rfl
    · exact h g file hg

theorem tableExact_empty : TableExact .empty := fun f file hf => by
  rw [LineTable.empty, Table.find?_empty] at hf
  cases hf

theorem tableStep_exact {t t' : LineTable} {op : TableOp} (h : TableExact t)
    (hfits : SplitFits t op) (hs : tableStep t op = some t') : TableExact t' := by
  cases op with
  | reset => exact Option.some.inj hs ▸ tableExact_empty
  | openFile f content => exact Option.some.inj hs ▸ h.openFile f content
  | split f => exact Option.some.inj hs ▸ h.split hfits

theorem meets_splitExact {ops : List TableOp} (h : Meets tableStep SplitFits .empty ops) :
    Meets tableStep SplitExact .empty ops := by
  intro pre op hpre t ht
  have htable : TableExact t :=
    run_inv_of_meets (fun _ _ _ ht hfits hs => tableStep_exact ht hfits hs) tableExact_empty
      (h.restrict ((List.prefix_append pre [op]).trans hpre)) ht
  cases op with
  | reset => trivial
  | openFile f content => trivial
  | split f =>
      exact ⟨fun file hf => htable.returns hf (h pre _ hpre t ht), split_others t f⟩

/-- In every run, however it opens files, splits them and starts again, each call of
    `buxn_ls_analyzer_split_file` is right if and only if each first split fits. -/
theorem slices_exact_iff (ops : List TableOp) :
    Meets tableStep SplitExact .empty ops ↔ Meets tableStep SplitFits .empty ops := by
  refine ⟨fun h pre op hpre t ht => ?_, meets_splitExact⟩
  have hexact := h pre op hpre t ht
  cases op with
  | reset => trivial
  | openFile f content => trivial
  | split f =>
      intro file hf hneg
      exact (returnsLines_fresh_iff hf hneg).mp (hexact.1 file hf)

theorem length_splitFile_replicate {n : Nat} (hn : n < 2 ^ 64) :
    (splitFile (List.replicate n lf)).length = n := by
  have hpair : ¬ [cr, lf] <:+: List.replicate n lf := by
    intro h
    have hcr : cr ∈ List.replicate n lf := h.subset List.mem_cons_self
    exact absurd (List.eq_of_mem_replicate hcr) (by decide)
  have hlines : ∀ offset, (refLines offset (List.replicate n lf)).length = n := by
    clear hn hpair
    induction n with
    | zero => exact fun offset => rfl
    | succ n ih =>
        intro offset
        unfold refLines
        rw [List.replicate_succ]
        dsimp only
        rw [if_pos rfl, List.length_cons, ih]
  rw [splitFile_refLines (by rwa [List.length_replicate]) hpair, List.length_map, hlines]

/-- A file of 2^31 line feeds: its count of lines comes back negative. -/
theorem slices_exact_fails :
    ¬ Meets tableStep SplitExact .empty
      [.openFile (ascii "a") (List.replicate (2 ^ 31) lf), .split (ascii "a")] := by
  intro h
  have hopen : run tableStep .empty [.openFile (ascii "a") (List.replicate (2 ^ 31) lf)] =
      some (LineTable.empty.openFile (ascii "a") (List.replicate (2 ^ 31) lf)) := rfl
  have hexact := h [.openFile (ascii "a") (List.replicate (2 ^ 31) lf)] _ List.prefix_rfl _ hopen
  have hfile : (LineTable.empty.openFile (ascii "a") (List.replicate (2 ^ 31) lf)).files.find?
      (ascii "a") = some ⟨List.replicate (2 ^ 31) lf, -1, 0⟩ := rfl
  have hfits := (returnsLines_fresh_iff hfile (by decide)).mp (hexact.1 _ hfile)
  rw [length_splitFile_replicate (by decide)] at hfits
  exact absurd hfits.2 (by decide)

/-! ## The analyzer -/

def splitStateOf (file : File) : SplitState where
  content := file.content
  firstLineIndex := file.firstLineIndex.elim (-1) fun first => first
  numLines := file.numLines

/-- The table has what the analyzer has for lines. -/
structure Represents (a : Analyzer) (t : LineTable) : Prop where
  lines : t.lines = a.lines
  files : ∀ f, t.files.find? f = (a.files.find? f).map splitStateOf

/-- Calls that lead from the table of `a` to one of `b`. -/
def TableLeads (a b : Analyzer) : Prop :=
  ∀ t, Represents a t → ∃ ops t', run tableStep t ops = some t' ∧ Meets tableStep SplitFits t ops ∧
    Represents b t'

theorem TableLeads.of_represents {a b : Analyzer} (h : ∀ t, Represents a t → Represents b t) :
    TableLeads a b :=
  fun t ht => ⟨[], t, rfl, meets_nil _ t, h t ht⟩

theorem TableLeads.single {a b : Analyzer} (op : TableOp) (h : ∀ t, Represents a t →
    SplitFits t op ∧ ∃ t', tableStep t op = some t' ∧ Represents b t') : TableLeads a b := by
  intro t ht
  obtain ⟨hfits, t', hstep, hb⟩ := h t ht
  refine ⟨[op], t', ?_, meets_cons_iff.mpr ⟨hfits, fun _ _ => meets_nil _ _⟩, hb⟩
  rw [run_cons, hstep]
  rfl

theorem TableLeads.trans {a b c : Analyzer} (h : TableLeads a b) (h' : TableLeads b c) :
    TableLeads a c := by
  intro t ht
  obtain ⟨ops, t₁, hrun, hmeets, h₁⟩ := h t ht
  obtain ⟨ops', t₂, hrun', hmeets', h₂⟩ := h' t₁ h₁
  refine ⟨ops ++ ops', t₂, ?_, hmeets.append hrun hmeets', h₂⟩
  rw [run_append, hrun, Option.bind_some, hrun']

theorem splitStateOf_congr {file file' : File} (h : textOf file' = textOf file) :
    splitStateOf file' = splitStateOf file := by
  simp only [textOf, Prod.mk.injEq] at h
  obtain ⟨hc, hi, hn⟩ := h
  unfold splitStateOf
  rw [hc, hi, hn]

theorem Represents.congr {a b : Analyzer} {t : LineTable} (h : Represents a t)
    (hl : b.lines = a.lines)
    (ht : ∀ f, (b.files.find? f).map textOf = (a.files.find? f).map textOf) : Represents b t := by
  refine ⟨h.lines.trans hl.symm, fun f => (h.files f).trans ?_⟩
  have hf := ht f
  cases ha : a.files.find? f with
  | none =>
      rw [ha, Option.map_none, Option.map_eq_none_iff] at hf
      rw [hf, Option.map_none]
  | some file =>
      rw [ha] at hf
      obtain ⟨file', hb, he⟩ := Option.map_eq_some_iff.mp hf
      rw [hb, Option.map_some, Option.map_some, splitStateOf_congr he]

/-- A conversion of the analyzer is a call on its table, as long as the array stays small. -/
theorem split_leads {a : Analyzer} {f : Str} (hfew : (a.splitFile f).1.lines.length < 2 ^ 31) :
    TableLeads a (a.splitFile f).1 := by
  cases hf : a.files.find? f with
  | none =>
      have hsame : (a.splitFile f).1 = a := by simp only [Analyzer.splitFile, hf]
      rw [hsame]
      exact .of_represents fun t ht => ht
  | some file =>
      cases hi : file.firstLineIndex with
      | some first =>
          rw [splitFile_cached hf hi]
          exact .of_represents fun t ht => ht
      | none =>
          rw [splitFile_fresh hf hi] at hfew ⊢
          rw [List.length_append] at hfew
          refine .single (.split f) fun t ht => ?_
          have hstate : t.files.find? f = some (splitStateOf file) := by
            rw [ht.files, hf]
            rfl
          have hneg : (splitStateOf file).firstLineIndex < 0 := by
            unfold splitStateOf
            rw [hi]
            exact Int.negSucc_lt_zero 0
          have hlines := ht.lines
          refine ⟨fun file' hf' _ => ?_, _, rfl, ?_⟩
          · obtain rfl := Option.some.inj (hstate.symm.trans hf')
            rw [hlines]
            exact ⟨by omega, by unfold splitStateOf; dsimp only; omega⟩
          · rw [split_fresh hstate hneg]
            have hindex := (wrapInt_eq_self_iff (Int.natCast_nonneg a.lines.length)).mpr (by omega)
            have hcount := (wrapInt_eq_self_iff
              (Int.natCast_nonneg (splitFile file.content).length)).mpr (by omega)
            refine ⟨?_, fun g => ?_⟩
            · unfold splitFresh
              dsimp only
              rw [hlines]
              rfl
            · unfold splitFresh splitStateOf
              dsimp only
              rw [Table.find?_put, Table.find?_put, hlines, hindex, hcount]
              split
              · rfl
              · exact ht.files g

theorem capture_leads (a : Analyzer) (f content : Str) :
    TableLeads a (captureFile a f content) := by
  refine .single (.openFile f content) fun t ht => ⟨trivial, _, rfl, ?_⟩
  have hsome : (t.files.find? f).isSome = (a.files.find? f).isSome := by
    rw [ht.files, Option.isSome_map]
  unfold captureFile putFile LineTable.openFile
  rw [hsome]
  split
  · exact ht
  · refine ⟨ht.lines, fun g => ?_⟩
    dsimp only
    rw [Table.find?_put, Table.find?_put]
    split
    · rfl
    · exact ht.files g

/-- The array only grows, and while it is small the table follows. -/
def TableFollows (a b : Analyzer) : Prop :=
  a.lines <+: b.lines ∧ (b.lines.length < 2 ^ 31 → TableLeads a b)

theorem keeps_tableFollows : TextKeeps TableFollows where
  refl := fun a => ⟨List.prefix_rfl, fun _ => .of_represents fun _ ht => ht⟩
  trans := fun h h' => ⟨h.1.trans h'.1, fun hfew =>
    (h.2 (Nat.lt_of_le_of_lt h'.1.length_le hfew)).trans (h'.2 hfew)⟩
  text := fun hl ht => ⟨hl ▸ List.prefix_rfl, fun _ => .of_represents fun _ h => h.congr hl ht⟩
  split := fun a f => by
    refine ⟨?_, split_leads⟩
    unfold Analyzer.splitFile
    split
    · exact List.prefix_rfl
    · split
      · exact List.prefix_rfl
      · exact List.prefix_append _ _

theorem textBase_follows (a : Analyzer) (l : Label) : TableFollows a (textBase a l) := by
  unfold textBase
  split
  · split
    · exact keeps_tableFollows.refl a
    · refine ⟨?_, fun _ => capture_leads a _ _⟩
      unfold captureFile
      split <;> exact List.prefix_rfl
  · exact keeps_tableFollows.refl a

theorem step_leads {E : Env} {m m' : Machine} {l : Label} (h : step E m l = some m')
    (hfew : m'.analyzer.lines.length < 2 ^ 31) : TableLeads m.analyzer m'.analyzer := by
  by_cases hl : ∀ docs, l ≠ .start docs
  · exact (keeps_tableFollows.trans (textBase_follows m.analyzer l)
      (keeps_tableFollows.step hl h)).2 hfew
  · simp only [not_forall, not_not] at hl
    obtain ⟨docs, rfl⟩ := hl
    obtain ⟨hlines, hfiles⟩ := start_texts h
    refine .single .reset fun t _ => ⟨trivial, _, rfl, hlines.symm, fun f => ?_⟩
    rw [hfiles, Table.find?_empty]
    rfl

/-- While its array stays below 2^31 lines, the lines of the analyzer are those of a table that
    calls which fit have led to, so every slice it returned is exact. -/
theorem analyzer_represented {E : Env} {ls : List Label} {m : Machine}
    (h : run (step E) Machine.init ls = some m)
    (hfew : Always (step E) (fun m => m.analyzer.lines.length < 2 ^ 31) Machine.init ls) :
    ∃ ops t, run tableStep .empty ops = some t ∧ Meets tableStep SplitExact .empty ops ∧
      Represents m.analyzer t := by
  have hleads : TableLeads Machine.init.analyzer m.analyzer := by
    refine run_inv_of_meets (P := fun m' => TableLeads Machine.init.analyzer m'.analyzer)
      (C := fun m l => ∀ m', step E m l = some m' → m'.analyzer.lines.length < 2 ^ 31)
      (fun _ _ _ hm hC hs => hm.trans (step_leads hs (hC _ hs)))
      (.of_represents fun _ ht => ht) ?_ h
    intro pre l hpre t ht m' hm'
    refine hfew (pre ++ [l]) hpre m' ?_
    rw [run_concat, ht, Option.bind_some, hm']
  obtain ⟨ops, t, hrun, hmeets, ht⟩ := hleads .empty ⟨rfl, fun f => rfl⟩
  exact ⟨ops, t, hrun, meets_splitExact hmeets, ht⟩

end BuxnLs.Analysis
