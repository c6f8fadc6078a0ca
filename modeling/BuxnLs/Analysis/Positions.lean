/-
  Order of converted positions. A text whose lines end with LF is `joinLines` of its closed
  lines and a pending part, and so is what stands before a position in it: `foldl_advance` reads
  line and column off that form, `splitFile_getElem?` finds the line in the table. Within a line
  a code point adds a code unit, so `conversion_strict_iff`: a position is converted strictly
  before a later one unless the later one is the end of a file that ends with LF. That place is
  on no line of the table and falls back to the start of the file.
-/
import BuxnLs.Analysis.LineCache
import BuxnLs.Analysis.Offsets
import BuxnLs.Analysis.Split
import BuxnLs.Lib.Lines
import BuxnLs.Model.AsciiEnv

namespace BuxnLs.Analysis

open BuxnLs.Lib BuxnLs.Model

/-- Valid UTF-8 text with LF as its only line terminator. The assembler keeps line, column and
    offset as `int`. -/
structure LfText where
  chars : List Char
  noCr : '\r' ∉ chars
  fits : (utf8 chars).length < 2 ^ 31 - 1

def LfText.content (t : LfText) : Str := utf8 t.chars

/-- The position behind one more byte. -/
def advance (pos : AsmPos) (ch : UInt8) : AsmPos :=
  if ch = lf then ⟨pos.line + 1, 1, pos.byte + 1⟩ else ⟨pos.line, pos.col + 1, pos.byte + 1⟩

/-- The position in front of the `k`-th code point; with the number of code points it is the end
    of the file. -/
def LfText.posAt (t : LfText) (k : Nat) : AsmPos :=
  (utf8 (t.chars.take k)).foldl advance ⟨1, 1, 0⟩

/-! ## Positions in lines -/

theorem foldl_advance_line {l : Str} (hl : lf ∉ l) (pos : AsmPos) :
    l.foldl advance pos = ⟨pos.line, pos.col + l.length, pos.byte + l.length⟩ := by
  induction l generalizing pos with
  | nil => rfl
  | cons ch l ih =>
      rw [List.mem_cons, not_or] at hl
      rw [List.foldl_cons, ih hl.2, advance, if_neg (Ne.symm hl.1)]
      simp only [List.length_cons, AsmPos.mk.injEq, true_and]
      omega

theorem foldl_advance_joinLines {ls : List Str} (hls : ∀ l ∈ ls, lf ∉ l) (line byte : Nat) :
    (joinLines [lf] ls).foldl advance ⟨line, 1, byte⟩ =
      ⟨line + ls.length, 1, byte + (joinLines [lf] ls).length⟩ := by
  induction ls generalizing line byte with
  | nil => rfl
  | cons l ls ih =>
      rw [joinLines_cons, List.foldl_append, List.foldl_append,
        foldl_advance_line (hls l List.mem_cons_self), List.foldl_cons, List.foldl_nil, advance,
        if_pos rfl, ih fun l' hl' => hls l' (List.mem_cons_of_mem l hl')]
      simp only [List.length_append, List.length_cons, List.length_nil, AsmPos.mk.injEq, true_and]
      omega

/-- The position behind closed lines and a pending part. -/
theorem foldl_advance {ls : List Str} {pending : Str} (hls : ∀ l ∈ ls, lf ∉ l)
    (hp : lf ∉ pending) :
    (joinLines [lf] ls ++ pending).foldl advance ⟨1, 1, 0⟩ =
      ⟨1 + ls.length, 1 + pending.length, (joinLines [lf] ls ++ pending).length⟩ := by
  rw [List.foldl_append, foldl_advance_joinLines hls, foldl_advance_line hp, List.length_append,
    Nat.zero_add]

/-- More text leads to a later line, or further on the same line. -/
theorem foldl_advance_later (text : Str) (pos : AsmPos) :
    pos.line < (text.foldl advance pos).line ∨
      (text.foldl advance pos).line = pos.line ∧
        (text.foldl advance pos).col = pos.col + text.length := by
  induction text generalizing pos with
  | nil => exact Or.inr ⟨rfl, rfl⟩
  | cons ch text ih =>
      have hrest := ih (advance pos ch)
      rw [List.foldl_cons, List.length_cons]
      by_cases hch : ch = lf
      · have hline : (advance pos ch).line = pos.line + 1 := by rw [advance, if_pos hch]
        omega
      · have hline : (advance pos ch).line = pos.line := by rw [advance, if_neg hch]
        have hcol : (advance pos ch).col = pos.col + 1 := by rw [advance, if_neg hch]
        omega

/-! ## Lines of the reference -/

theorem refLines_joinLines {ls : List Str} (hls : ∀ l ∈ ls, cr ∉ l ∧ lf ∉ l) (offset : Nat)
    (rest : Str) :
    ∃ closed, refLines offset (joinLines [lf] ls ++ rest) =
        closed ++ refLines (offset + (joinLines [lf] ls).length) rest ∧
      closed.length = ls.length := by
  induction ls generalizing offset with
  | nil => exact ⟨[], rfl, rfl⟩
  | cons l ls ih =>
      obtain ⟨closed, hrest, hlen⟩ :=
        ih (fun l' hl' => hls l' (List.mem_cons_of_mem l hl')) (offset + l.length + 1)
      have hend : refLines (offset + l.length) (lf :: (joinLines [lf] ls ++ rest)) =
          ⟨offset + l.length, [], [lf]⟩ ::
            refLines (offset + l.length + 1) (joinLines [lf] ls ++ rest) :=
        refLines_end (Or.inr rfl) fun h => absurd h (by decide)
      have hline := refLines_append (hls l List.mem_cons_self) hend
      refine ⟨⟨offset, l ++ [], [lf]⟩ :: closed, ?_, by simp [hlen]⟩
      rw [joinLines_cons, List.append_assoc, List.append_assoc, List.singleton_append, hline,
        hrest, List.cons_append]
      congr 3
      simp only [List.length_append, List.length_cons, List.length_nil]
      omega

/-- The first line of a text: up to its first LF, or all of it. -/
theorem refLines_first {pending rest : Str} (hp : cr ∉ pending ∧ lf ∉ pending)
    (hrest : rest = [] ∨ ∃ more, rest = lf :: more) (hne : pending ++ rest ≠ [])
    (offset : Nat) :
    ∃ terminator lines,
      refLines offset (pending ++ rest) = ⟨offset, pending, terminator⟩ :: lines := by
  rcases hrest with rfl | ⟨more, rfl⟩
  · rw [List.append_nil] at hne ⊢
    exact ⟨[], [], by rw [refLines_pending hp, if_neg hne]⟩
  · have hend : refLines (offset + pending.length) (lf :: more) =
        ⟨offset + pending.length, [], [lf]⟩ :: refLines (offset + pending.length + 1) more :=
      refLines_end (Or.inr rfl) fun h => absurd h (by decide)
    have hline := refLines_append hp hend
    rw [List.append_nil] at hline
    exact ⟨_, _, hline⟩

/-! ## Lines of a text -/

theorem utf8_joinLines (ls : List (List Char)) :
    utf8 (joinLines ['\n'] ls) = joinLines [lf] (ls.map utf8) := by
  induction ls with
  | nil => rfl
  | cons l ls ih =>
      rw [joinLines_cons, List.map_cons, joinLines_cons, ← ih, utf8_append, utf8_append]
      rfl

/-- A text cut in two: the closed lines before the cut, the line of the cut on both sides, and
    the lines behind it. -/
structure CutAt (before behind : List Char) (ls : List (List Char)) (left right : List Char)
    (more : List Char) : Prop where
  before : before = joinLines ['\n'] ls ++ left
  behind : behind = right ++ more
  lines : ∀ l ∈ ls, '\n' ∉ l
  left : '\n' ∉ left
  right : '\n' ∉ right
  more : more = [] ∨ ∃ rest, more = '\n' :: rest

theorem exists_cutAt (before behind : List Char) :
    ∃ ls left right more, CutAt before behind ls left right more := by
  obtain ⟨ls, left, hb, hls, hleft⟩ := exists_joinLines '\n' before
  obtain ⟨ls', pending, hr, hls', hpending⟩ := exists_joinLines '\n' behind
  match ls', hls' with
  | [], _ => exact ⟨ls, left, pending, [], hb, by simpa using hr, hls, hleft, hpending, Or.inl rfl⟩
  | l :: ls', hls' =>
      refine ⟨ls, left, l, '\n' :: (joinLines ['\n'] ls' ++ pending), hb, ?_, hls, hleft,
        hls' l List.mem_cons_self, Or.inr ⟨_, rfl⟩⟩
      rw [hr, joinLines_cons]
      simp only [List.append_assoc, List.cons_append, List.nil_append]

variable {t : LfText} {before behind left right more : List Char} {ls : List (List Char)}

/-- No part of the text has a CR. -/
theorem LfText.cr_notMem (t : LfText) {part pre post : List Char}
    (h : t.chars = pre ++ part ++ post) : cr ∉ utf8 part :=
  cr_notMem_utf8 fun hc => t.noCr (h ▸ List.mem_append_left _ (List.mem_append_right _ hc))

theorem LfText.splitFile_eq (t : LfText) :
    splitFile t.content = (refLines 0 t.content).map (RefLine.line t.content) := by
  refine splitFile_refLines (Nat.lt_trans t.fits (by decide)) fun hpair => ?_
  exact cr_notMem_utf8 t.noCr (hpair.subset List.mem_cons_self)

theorem CutAt.position (h : CutAt before behind ls left right more) :
    (utf8 before).foldl advance ⟨1, 1, 0⟩ =
      ⟨1 + ls.length, 1 + (utf8 left).length, (utf8 before).length⟩ := by
  have hls : ∀ l ∈ ls.map utf8, lf ∉ l := by
    intro l hl
    obtain ⟨cs, hcs, rfl⟩ := List.mem_map.mp hl
    exact lf_notMem_utf8 (h.lines cs hcs)
  rw [h.before, utf8_append, utf8_joinLines, foldl_advance hls (lf_notMem_utf8 h.left),
    List.length_map]

/-- The lines of the reference around the cut. -/
theorem CutAt.refLines (h : CutAt before behind ls left right more)
    (ht : t.chars = before ++ behind) :
    ∃ closed, refLines 0 t.content =
        closed ++ refLines (utf8 (joinLines ['\n'] ls)).length
          (utf8 (left ++ right) ++ utf8 more) ∧
      closed.length = ls.length := by
  have hplain : ∀ l ∈ ls.map utf8, cr ∉ l ∧ lf ∉ l := by
    intro l hl
    obtain ⟨cs, hcs, rfl⟩ := List.mem_map.mp hl
    refine ⟨cr_notMem_utf8 fun hc => t.noCr ?_, lf_notMem_utf8 (h.lines cs hcs)⟩
    rw [ht, h.before]
    refine List.mem_append_left _ (List.mem_append_left _ ?_)
    exact List.mem_flatMap.mpr ⟨cs, hcs, List.mem_append_left _ hc⟩
  obtain ⟨closed, hlines, hlen⟩ :=
    refLines_joinLines hplain 0 (utf8 (left ++ right) ++ utf8 more)
  refine ⟨closed, ?_, by rw [hlen, List.length_map]⟩
  rw [utf8_joinLines, ← Nat.zero_add (joinLines [lf] (ls.map utf8)).length, ← hlines,
    LfText.content, ht, h.before, h.behind]
  simp only [utf8_append, utf8_joinLines, List.append_assoc]

/-- At the cut the table has the line around it, unless nothing is left behind a closed line. -/
theorem CutAt.splitFile_getElem? (h : CutAt before behind ls left right more)
    (ht : t.chars = before ++ behind) (hne : left ++ behind ≠ []) :
    ∃ line, (splitFile t.content)[ls.length]? = some line ∧
      line.chars.take line.len = utf8 (left ++ right) ∧ line.len = (utf8 (left ++ right)).length ∧
      line.len ≤ line.chars.length := by
  obtain ⟨closed, hlines, hlen⟩ := h.refLines ht
  have hparts : t.chars = joinLines ['\n'] ls ++ (left ++ right) ++ more := by
    rw [ht, h.before, h.behind]
    simp only [List.append_assoc]
  have hmore : utf8 more = [] ∨ ∃ rest, utf8 more = lf :: rest := by
    rcases h.more with rfl | ⟨rest, rfl⟩
    · exact Or.inl rfl
    · exact Or.inr ⟨utf8 rest, rfl⟩
  have hpart : utf8 (left ++ right) ++ utf8 more ≠ [] := by
    rw [← utf8_append, List.append_assoc, ← h.behind]
    intro hnil
    refine hne (List.eq_nil_iff_forall_not_mem.mpr fun c hc => ?_)
    exact String.utf8EncodeChar_ne_nil (List.flatMap_eq_nil_iff.mp hnil c hc)
  have hlf : lf ∉ utf8 (left ++ right) := lf_notMem_utf8 (by simp [h.left, h.right])
  obtain ⟨terminator, lines, hfirst⟩ := refLines_first ⟨t.cr_notMem hparts, hlf⟩
    hmore hpart (utf8 (joinLines ['\n'] ls)).length
  have hcontent : t.content =
      utf8 (joinLines ['\n'] ls) ++ (utf8 (left ++ right) ++ utf8 more) := by
    rw [LfText.content, hparts]
    simp only [utf8_append, List.append_assoc]
  refine ⟨RefLine.line t.content ⟨(utf8 (joinLines ['\n'] ls)).length, utf8 (left ++ right),
    terminator⟩, ?_, ?_, rfl, ?_⟩
  · rw [t.splitFile_eq, List.getElem?_map, hlines, hfirst, ← hlen,
      List.getElem?_append_right (Nat.le_refl _), Nat.sub_self]
    rfl
  · rw [RefLine.line, hcontent, List.drop_left, List.take_left' rfl]
  · rw [RefLine.line, hcontent, List.drop_left, List.length_append]
    exact Nat.le_add_right _ _

/-- Behind the last closed line the table ends. -/
theorem CutAt.splitFile_length (h : CutAt before behind ls left right more)
    (ht : t.chars = before ++ behind) (hnil : left ++ behind = []) :
    (splitFile t.content).length = ls.length := by
  obtain ⟨closed, hlines, hlen⟩ := h.refLines ht
  obtain ⟨rfl, hb⟩ := List.append_eq_nil_iff.mp hnil
  obtain ⟨rfl, rfl⟩ := List.append_eq_nil_iff.mp (h.behind.symm.trans hb)
  rw [t.splitFile_eq, List.length_map, hlines, ← hlen, List.length_append]
  rfl

/-! ## Converted positions -/

/-- The converted position of a cut that is on a line of the table: the line, and the code units
    of what stands to the left. -/
theorem CutAt.positionIn {u : Utf8proc} (hu : u.DecodesUtf8)
    (h : CutAt before behind ls left right more) (ht : t.chars = before ++ behind)
    (hne : left ++ behind ≠ []) :
    positionIn u (some (splitFile t.content)) ((utf8 before).foldl advance ⟨1, 1, 0⟩) =
      ⟨ls.length, cut TextUnit.utf16Length ((left ++ right).map charUnit) left.length⟩ := by
  obtain ⟨line, hline, htake, hlen, hle⟩ := h.splitFile_getElem? ht hne
  have hlt : ls.length < (splitFile t.content).length := (List.getElem?_eq_some_iff.mp hline).1
  have hindex : ((1 + ls.length : Nat) : Int) - 1 = ls.length := by omega
  have hcol : ((1 + (utf8 left).length : Nat) : Int) - 1 = (utf8 left).length := by omega
  have hfits : line.len < 2 ^ 63 := by
    have hparts : t.chars = joinLines ['\n'] ls ++ (left ++ right) ++ more := by
      rw [ht, h.before, h.behind]
      simp only [List.append_assoc]
    have hall := t.fits
    rw [hparts] at hall
    simp only [utf8_append, List.length_append] at hall hlen
    omega
  have hat : lineAt (splitFile t.content) (ls.length : Nat) = line := by
    rw [lineAt, if_pos (Int.natCast_nonneg _), Int.toNat_natCast, List.getD_eq_getElem?_getD,
      hline, Option.getD_some]
  have hleft : (utf8 left).length =
      cut TextUnit.bytes ((left ++ right).map charUnit) left.length := by
    rw [← units_utf8 hu, cut_units_utf8 hu, List.take_left' rfl]
  rw [h.position, Model.positionIn]
  dsimp only
  rw [hindex, if_neg (by omega), hat, hcol, utf16OffsetFromByteOffset_eq u hfits hle, htake,
    units_utf8 hu, hleft, scan_cut]
  intro unit hunit
  exact units_bytes_pos u (utf8 (left ++ right)) unit (units_utf8 hu _ ▸ hunit)

/-- The fallback: behind the last closed line the position converts to the start of the file. -/
theorem CutAt.positionIn_end (u : Utf8proc) (h : CutAt before behind ls left right more)
    (ht : t.chars = before ++ behind) (hnil : left ++ behind = []) :
    Model.positionIn u (some (splitFile t.content)) ((utf8 before).foldl advance ⟨1, 1, 0⟩) =
      ⟨0, 0⟩ := by
  have hlen := h.splitFile_length ht hnil
  rw [h.position, Model.positionIn]
  dsimp only
  rw [if_pos (by omega)]

/-- Two cuts on lines of the table convert in their order. -/
theorem CutAt.positionIn_lt {u : Utf8proc} (hu : u.DecodesUtf8)
    {before' behind' left' right' more' mid : List Char} {ls' : List (List Char)}
    (h : CutAt before behind ls left right more) (ht : t.chars = before ++ behind)
    (hne : left ++ behind ≠ []) (h' : CutAt before' behind' ls' left' right' more')
    (ht' : t.chars = before' ++ behind') (hne' : left' ++ behind' ≠ [])
    (hmid : before' = before ++ mid) (hpos : mid ≠ []) :
    cmpPos (Model.positionIn u (some (splitFile t.content))
        ((utf8 before).foldl advance ⟨1, 1, 0⟩))
      (Model.positionIn u (some (splitFile t.content))
        ((utf8 before').foldl advance ⟨1, 1, 0⟩)) < 0 := by
  have hlater := foldl_advance_later (utf8 mid) ((utf8 before).foldl advance ⟨1, 1, 0⟩)
  rw [← List.foldl_append, ← utf8_append, ← hmid, h.position, h'.position] at hlater
  rw [h.positionIn hu ht hne, h'.positionIn hu ht' hne', cmpPos]
  dsimp only at hlater ⊢
  by_cases hsame : ls.length = ls'.length
  · have hmidpos : 0 < (utf8 mid).length := by
      refine List.length_pos_iff.mpr fun hnil => hpos (List.eq_nil_iff_forall_not_mem.mpr ?_)
      exact fun c hc => String.utf8EncodeChar_ne_nil (List.flatMap_eq_nil_iff.mp hnil c hc)
    -- both are on the same line, which decodes to the same units
    obtain ⟨line, hline, htake, -⟩ := h.splitFile_getElem? ht hne
    obtain ⟨line', hline', htake', -⟩ := h'.splitFile_getElem? ht' hne'
    rw [hsame, hline', Option.some.injEq] at hline
    rw [hline, htake] at htake'
    have hunits : (left ++ right).map charUnit = (left' ++ right').map charUnit := by
      rw [← units_utf8 hu, ← units_utf8 hu, htake']
    have hbytes : cut TextUnit.bytes ((left ++ right).map charUnit) left.length <
        cut TextUnit.bytes ((left ++ right).map charUnit) left'.length := by
      have hcut := cut_units_utf8 hu (left ++ right) left.length
      have hcut' := cut_units_utf8 hu (left' ++ right') left'.length
      rw [units_utf8 hu, List.take_left' rfl] at hcut hcut'
      rw [hcut, hunits, hcut']
      omega
    have hlt : left.length < left'.length := by
      by_contra hge
      have hmono := cut_mono TextUnit.bytes ((left ++ right).map charUnit) (Nat.not_lt.mp hge)
      omega
    have hunitsPos : ∀ unit ∈ (left' ++ right').map charUnit, 0 < unit.utf16Length := by
      intro unit hunit
      obtain ⟨c, -, rfl⟩ := List.mem_map.mp hunit
      exact charUnit_utf16Length_pos c
    have hunitsLt := cut_lt hunitsPos hlt (by simp)
    rw [hsame, if_pos rfl, hunits]
    omega
  · rw [if_neg (by omega)]
    omega

/-! ## The order of conversions -/

/-- The cut in front of the `k`-th code point. -/
theorem LfText.chars_cut (t : LfText) (k : Nat) :
    t.chars = t.chars.take k ++ t.chars.drop k := (List.take_append_drop k t.chars).symm

/-- Nothing is left at a cut behind a closed line: the cut is the end of a text that ends with
    LF. -/
theorem CutAt.nothing_left_iff {k : Nat} (hpos : 0 < k) (hk : k ≤ t.chars.length)
    (h : CutAt (t.chars.take k) (t.chars.drop k) ls left right more) :
    left ++ t.chars.drop k = [] ↔ k = t.chars.length ∧ t.chars.getLast? = some '\n' := by
  have hdrop : t.chars.drop k = [] ↔ k = t.chars.length := by
    rw [List.drop_eq_nil_iff]
    omega
  rw [List.append_eq_nil_iff, hdrop, and_comm]
  refine and_congr_right fun hend => ?_
  have hwhole : t.chars = joinLines ['\n'] ls ++ left := by
    rw [← h.before, hend, List.take_length]
  rcases List.eq_nil_or_concat left with rfl | ⟨init, c, rfl⟩
  · refine ⟨fun _ => ?_, fun _ => rfl⟩
    rcases List.eq_nil_or_concat ls with rfl | ⟨init, l, rfl⟩
    · rw [hwhole] at hend
      exact absurd hend (Nat.ne_of_gt hpos)
    · rw [hwhole, List.append_nil, List.concat_eq_append, joinLines_append, joinLines_cons,
        joinLines_nil, List.append_nil, ← List.append_assoc, List.getLast?_concat]
  · refine ⟨fun hnil => absurd hnil (by simp), fun hlast => ?_⟩
    rw [hwhole, List.concat_eq_append, ← List.append_assoc, List.getLast?_concat,
      Option.some.injEq] at hlast
    have hmem : '\n' ∈ init.concat c := by
      rw [List.concat_eq_append, hlast]
      exact List.mem_append_right init (List.mem_singleton_self _)
    exact absurd hmem h.left

/-- A position is converted strictly before a later one unless the later one is the end of a
    file that ends with LF; and a range is the pair of its converted ends. The `int`s that index
    the lines are exact while their array stays below 2^31 lines (`analyzer_represented`). -/
theorem conversion_strict_iff {E : Env} (hE : E.utf8proc.DecodesUtf8) {m : Machine}
    (hm : Reachable (step E) Machine.init m) {filename : Str} {file : File}
    (hf : m.analyzer.files.find? filename = some file) {t : LfText}
    (ht : file.content = t.content) {j k : Nat} (hjk : j < k) (hk : k ≤ t.chars.length) :
    (cmpPos (convertPosition E m.analyzer filename (t.posAt j)).2
        (convertPosition E m.analyzer filename (t.posAt k)).2 < 0 ↔
      ¬ (k = t.chars.length ∧ t.chars.getLast? = some '\n')) ∧
    (convertRange E m.analyzer filename ⟨t.posAt j, t.posAt k⟩).2 =
      ⟨(convertPosition E m.analyzer filename (t.posAt j)).2,
        (convertPosition E m.analyzer filename (t.posAt k)).2⟩ := by
  have hcache := reachable_cacheOK hm
  refine ⟨?_, hcache.range filename _⟩
  obtain ⟨ls, left, right, more, hcut⟩ := exists_cutAt (t.chars.take j) (t.chars.drop j)
  obtain ⟨ls', left', right', more', hcut'⟩ := exists_cutAt (t.chars.take k) (t.chars.drop k)
  have hne : left ++ t.chars.drop j ≠ [] := by
    intro hnil
    have hdrop := List.drop_eq_nil_iff.mp (List.append_eq_nil_iff.mp hnil).2
    omega
  rw [hcache.position, hcache.position, hf, Option.map_some, ht,
    ← hcut'.nothing_left_iff (Nat.zero_lt_of_lt hjk) hk]
  constructor
  · intro hlt hnil
    rw [LfText.posAt, LfText.posAt, hcut.positionIn hE (t.chars_cut j) hne,
      hcut'.positionIn_end _ (t.chars_cut k) hnil, cmpPos] at hlt
    dsimp only at hlt
    split at hlt <;> omega
  · intro hne'
    have hmid : t.chars.take k = t.chars.take j ++ (t.chars.drop j).take (k - j) := by
      rw [← List.take_add, Nat.add_sub_cancel' (Nat.le_of_lt hjk)]
    refine hcut.positionIn_lt hE (t.chars_cut j) hne hcut' (t.chars_cut k) hne' hmid fun hnil => ?_
    have hlen := congrArg List.length hnil
    rw [List.length_take, List.length_drop, List.length_nil] at hlen
    omega

/-! ## A file that ends with LF -/

/-- An open document `a` with the given content, opened by the assembler. -/
def openingRun (content : Str) : List Label :=
  let docs := Table.empty.put (ascii "a") content
  [.start docs, .enter, .event (.fopen docs ⟨1, ascii "a"⟩ none)]

theorem openingRun_file (content : Str) :
    ∃ m file, run (step utf8Env) Machine.init (openingRun content) = some m ∧
      m.analyzer.files.find? (ascii "a") = some file ∧ file.content = content :=
  ⟨_, _, rfl, rfl, rfl⟩

/-- The text of an accented letter and a line end. -/
def accentLine : LfText := ⟨['é', '\n'], by decide, by decide⟩

theorem conversion_strict_accent :
    ∃ m, run (step utf8Env) Machine.init (openingRun accentLine.content) = some m ∧
      cmpPos (convertPosition utf8Env m.analyzer (ascii "a") (accentLine.posAt 0)).2
        (convertPosition utf8Env m.analyzer (ascii "a") (accentLine.posAt 1)).2 < 0 := by
  obtain ⟨m, file, hm, hf, hc⟩ := openingRun_file accentLine.content
  exact ⟨m, hm, (conversion_strict_iff charUtf8proc_decodes ⟨_, hm⟩ hf hc (j := 0) (k := 1)
    (by decide) (by decide)).1.mpr (by decide)⟩

/-- From the LF to the end of the file: the range starts behind its end, at `(0, 1)` and
    `(0, 0)`. -/
theorem conversion_turns_range :
    ∃ m file, run (step utf8Env) Machine.init (openingRun accentLine.content) = some m ∧
      m.analyzer.files.find? (ascii "a") = some file ∧ file.content = accentLine.content ∧
      (convertRange utf8Env m.analyzer (ascii "a")
        ⟨accentLine.posAt 1, accentLine.posAt 2⟩).2 = ⟨⟨0, 1⟩, ⟨0, 0⟩⟩ ∧
      ¬ cmpPos (convertPosition utf8Env m.analyzer (ascii "a") (accentLine.posAt 1)).2
        (convertPosition utf8Env m.analyzer (ascii "a") (accentLine.posAt 2)).2 < 0 := by
  obtain ⟨m, file, hm, hf, hc⟩ := openingRun_file accentLine.content
  have hcache : CacheOK m.analyzer := reachable_cacheOK ⟨_, hm⟩
  have hrange := hcache.range (E := utf8Env) (ascii "a")
    ⟨accentLine.posAt 1, accentLine.posAt 2⟩
  have hplaces : (convertPosition utf8Env m.analyzer (ascii "a") (accentLine.posAt 1)).2 = ⟨0, 1⟩ ∧
      (convertPosition utf8Env m.analyzer (ascii "a") (accentLine.posAt 2)).2 = ⟨0, 0⟩ := by
    rw [hcache.position, hcache.position, hf, Option.map_some, hc]
    decide
  dsimp only at hrange
  rw [hplaces.1, hplaces.2] at hrange
  refine ⟨m, file, hm, hf, hc, hrange, ?_⟩
  rw [hplaces.1, hplaces.2]
  decide

end BuxnLs.Analysis
