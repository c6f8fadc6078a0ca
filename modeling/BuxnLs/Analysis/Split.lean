/-
  `buxn_ls_split_file` against a reference splitter. The loop looks ahead at a CR and ends the
  line behind a following LF, but its index still visits that LF: it then pushes a line of
  length `i - (i + 1)`, which is the largest `size_t`. The lines are those of the reference
  exactly when the content has no CR LF pair and its lines fit the `int` counter.
-/
import BuxnLs.Model.Common

namespace BuxnLs.Analysis

open BuxnLs.Model

/-! ## The reference splitter -/

/-- A line of a text, at its offset, with the bytes that end it: none at a last line that is not
    terminated. -/
structure RefLine where
  offset : Nat
  text : Str
  terminator : Str
deriving DecidableEq, Repr

/-- A byte in front of the first line, which then starts at `offset`. -/
def extendFirst (offset : Nat) (ch : UInt8) : List RefLine → List RefLine
  | [] => [⟨offset, [ch], []⟩]
  | line :: lines => ⟨offset, ch :: line.text, line.terminator⟩ :: lines

/-- The lines of the text that starts at `offset`. -/
def refLines : Nat → Str → List RefLine
  | _, [] => []
  | offset, ch :: rest =>
    if ch = lf then ⟨offset, [], [lf]⟩ :: refLines (offset + 1) rest
    else if ch = cr then
      match rest with
      | [] => [⟨offset, [], [cr]⟩]
      | next :: rest =>
        if next = lf then ⟨offset, [], [cr, lf]⟩ :: refLines (offset + 2) rest
        else ⟨offset, [], [cr]⟩ :: refLines (offset + 1) (next :: rest)
    else extendFirst offset ch (refLines (offset + 1) rest)

example : refLines 0 [0x61, cr, cr, lf, 0x62] =
    [⟨0, [0x61], [cr]⟩, ⟨2, [], [cr, lf]⟩, ⟨4, [0x62], []⟩] := by decide

def RefLine.line (content : Str) (l : RefLine) : Line := ⟨content.drop l.offset, l.text.length⟩

/-- `l` is the slice of `content`, which starts at `base`, at its offset. -/
def RefLine.SliceOf (base : Nat) (content : Str) (l : RefLine) : Prop :=
  base ≤ l.offset ∧ l.offset + l.text.length ≤ base + content.length ∧
    (content.drop (l.offset - base)).take l.text.length = l.text

theorem sliceOf_behind (skipped : Str) {base : Nat} {content : Str} {l : RefLine}
    (h : l.SliceOf (base + skipped.length) content) : l.SliceOf base (skipped ++ content) := by
  obtain ⟨hge, hle, htake⟩ := h
  refine ⟨by omega, by rw [List.length_append]; omega, ?_⟩
  have hdrop : (skipped ++ content).drop (l.offset - base) =
      content.drop (l.offset - (base + skipped.length)) := by
    rw [List.drop_append, List.drop_eq_nil_of_le (by omega), List.nil_append]
    congr 1
    omega
  rw [hdrop, htake]

theorem sliceOf_empty (base : Nat) (content terminator : Str) :
    RefLine.SliceOf base content ⟨base, [], terminator⟩ :=
  ⟨Nat.le_refl _, Nat.le_add_right _ _, List.take_zero⟩

theorem sliceOf_extend {base : Nat} {content : Str} {l : RefLine} (ch : UInt8)
    (h : l.SliceOf (base + 1) content) (hoff : l.offset = base + 1) :
    RefLine.SliceOf base (ch :: content) ⟨base, ch :: l.text, l.terminator⟩ := by
  obtain ⟨-, hle, htake⟩ := h
  refine ⟨Nat.le_refl _, ?_, ?_⟩
  · simp only [List.length_cons]
    omega
  · rw [hoff, Nat.sub_self, List.drop_zero] at htake
    rw [Nat.sub_self, List.drop_zero, List.length_cons, List.take_succ_cons, htake]

/-- What a line that `ch` was put in front of comes from. -/
theorem mem_extendFirst {offset : Nat} {ch : UInt8} {lines : List RefLine} {l : RefLine}
    (h : l ∈ extendFirst offset ch lines) :
    l = ⟨offset, [ch], []⟩ ∨
      (∃ first ∈ lines.head?, l = ⟨offset, ch :: first.text, first.terminator⟩) ∨ l ∈ lines := by
  match lines with
  | [] => exact Or.inl (List.mem_singleton.mp h)
  | first :: lines =>
      rcases List.mem_cons.mp h with rfl | h
      · exact Or.inr (Or.inl ⟨first, rfl, rfl⟩)
      · exact Or.inr (Or.inr (List.mem_cons_of_mem _ h))

/-- The first line starts where the text does. -/
theorem refLines_head_offset (offset : Nat) (content : Str) :
    ∀ l ∈ (refLines offset content).head?, l.offset = offset := by
  intro l hl
  match content with
  | [] => exact absurd hl (by simp [refLines])
  | ch :: rest =>
      unfold refLines at hl
      split at hl
      · exact Option.some.inj hl ▸ rfl
      · split at hl
        · split at hl
          · exact Option.some.inj hl ▸ rfl
          · split at hl <;> exact Option.some.inj hl ▸ rfl
        · match hr : refLines (offset + 1) rest, hl with
          | [], hl => exact Option.some.inj hl ▸ rfl
          | first :: lines, hl => exact Option.some.inj hl ▸ rfl

/-- Every line is a slice of the text. -/
theorem refLines_sliceOf (offset : Nat) (content : Str) :
    ∀ l ∈ refLines offset content, l.SliceOf offset content := by
  fun_induction refLines offset content with
  | case1 => exact fun l hl => absurd hl List.not_mem_nil
  | case2 offset rest ih =>
      intro l hl
      rcases List.mem_cons.mp hl with rfl | hl
      · exact sliceOf_empty _ _ _
      · exact sliceOf_behind [lf] (ih l hl)
  | case3 offset =>
      intro l hl
      obtain rfl := List.mem_singleton.mp hl
      exact sliceOf_empty _ _ _
  | case4 offset _ rest ih =>
      intro l hl
      rcases List.mem_cons.mp hl with rfl | hl
      · exact sliceOf_empty _ _ _
      · exact sliceOf_behind [cr, lf] (ih l hl)
  | case5 offset _ next rest _ ih =>
      intro l hl
      rcases List.mem_cons.mp hl with rfl | hl
      · exact sliceOf_empty _ _ _
      · exact sliceOf_behind [cr] (ih l hl)
  | case6 offset ch rest _ _ ih =>
      intro l hl
      rcases mem_extendFirst hl with rfl | ⟨first, hfirst, rfl⟩ | hl
      · exact ⟨Nat.le_refl _, by simp, by simp⟩
      · exact sliceOf_extend ch (ih first (List.mem_of_mem_head? hfirst))
          (refLines_head_offset _ _ first hfirst)
      · exact sliceOf_behind [ch] (ih l hl)

/-- No line has a byte of a terminator in its text. -/
theorem refLines_plain (offset : Nat) (content : Str) :
    ∀ l ∈ refLines offset content, cr ∉ l.text ∧ lf ∉ l.text := by
  fun_induction refLines offset content with
  | case1 => exact fun l hl => absurd hl List.not_mem_nil
  | case6 offset ch rest hlf hcr ih =>
      intro l hl
      rcases mem_extendFirst hl with rfl | ⟨first, hfirst, rfl⟩ | hl
      · exact ⟨by simpa using Ne.symm hcr, by simpa using Ne.symm hlf⟩
      · obtain ⟨hc, hl⟩ := ih first (List.mem_of_mem_head? hfirst)
        exact ⟨fun h => (List.mem_cons.mp h).elim (fun e => hcr e.symm) hc,
          fun h => (List.mem_cons.mp h).elim (fun e => hlf e.symm) hl⟩
      · exact ih l hl
  | _ => simp_all

theorem flatMap_extendFirst (offset : Nat) (ch : UInt8) (lines : List RefLine) :
    (extendFirst offset ch lines).flatMap (fun l => l.text ++ l.terminator) =
      ch :: lines.flatMap (fun l => l.text ++ l.terminator) := by
  cases lines with
  | nil => rfl
  | cons first lines => rfl

/-- With their terminators the lines give back the text. -/
theorem refLines_rejoin (offset : Nat) (content : Str) :
    (refLines offset content).flatMap (fun l => l.text ++ l.terminator) = content := by
  fun_induction refLines offset content with
  | case6 offset ch rest _ _ ih => rw [flatMap_extendFirst, ih]
  | _ => simp_all [lf, cr]

/-! ## Bytes of a line in front of the rest -/

theorem refLines_cons {offset : Nat} {ch : UInt8} {rest : Str} (hcr : ch ≠ cr) (hlf : ch ≠ lf) :
    refLines offset (ch :: rest) = extendFirst offset ch (refLines (offset + 1) rest) := by
  rw [refLines.eq_def]
  dsimp only
  rw [if_neg hlf, if_neg hcr]

/-- A terminator of one byte. -/
theorem refLines_end {offset : Nat} {ch : UInt8} {rest : Str} (hend : ch = cr ∨ ch = lf)
    (hhead : ch = cr → rest.head? ≠ some lf) :
    refLines offset (ch :: rest) = ⟨offset, [], [ch]⟩ :: refLines (offset + 1) rest := by
  rw [refLines.eq_def]
  dsimp only
  by_cases hlf : ch = lf
  · rw [if_pos hlf, hlf]
  · have hcr : ch = cr := hend.resolve_right hlf
    rw [if_neg hlf, if_pos hcr, hcr]
    match rest with
    | [] => rfl
    | next :: rest => exact if_neg fun h : next = lf => hhead hcr (congrArg some h)

theorem refLines_pending {pending : Str} (hplain : cr ∉ pending ∧ lf ∉ pending) (offset : Nat) :
    refLines offset pending = if pending = [] then [] else [⟨offset, pending, []⟩] := by
  induction pending generalizing offset with
  | nil => rfl
  | cons ch pending ih =>
      obtain ⟨hcr, hlf⟩ := hplain
      rw [List.mem_cons, not_or] at hcr hlf
      rw [refLines_cons (Ne.symm hcr.1) (Ne.symm hlf.1), ih ⟨hcr.2, hlf.2⟩,
        if_neg (List.cons_ne_nil _ _)]
      by_cases hp : pending = []
      · rw [if_pos hp, hp]
        rfl
      · rw [if_neg hp]
        rfl

theorem refLines_append {pending rest : Str} (hplain : cr ∉ pending ∧ lf ∉ pending)
    {offset : Nat} {first : RefLine} {lines : List RefLine}
    (h : refLines (offset + pending.length) rest = first :: lines) :
    refLines offset (pending ++ rest) =
      ⟨offset, pending ++ first.text, first.terminator⟩ :: lines := by
  induction pending generalizing offset with
  | nil =>
      have hoff : first.offset = offset :=
        refLines_head_offset offset rest first (by
          rw [List.length_nil, Nat.add_zero] at h
          rw [h]
          rfl)
      rw [List.nil_append, List.nil_append, ← hoff]
      rw [List.length_nil, Nat.add_zero, ← hoff] at h
      exact h
  | cons ch pending ih =>
      obtain ⟨hcr, hlf⟩ := hplain
      rw [List.mem_cons, not_or] at hcr hlf
      have hrest : refLines (offset + 1 + pending.length) rest = first :: lines := by
        rw [← h, List.length_cons]
        congr 1
        omega
      rw [List.cons_append, refLines_cons (Ne.symm hcr.1) (Ne.symm hlf.1),
        ih ⟨hcr.2, hlf.2⟩ hrest]
      rfl

/-! ## The loop -/

theorem subSize_add {a n : Nat} (h : n < 2 ^ 64) : subSize (a + n) a = n := by
  unfold subSize
  omega

/-- The loop stands behind `pending`, the part of the current line that it has read, and has
    counted `k` lines. -/
structure AtLine (content rest : Str) (i : Nat) (s : Splitting) (pending : Str) (k : Int) :
    Prop where
  rest_eq : content.drop s.startIndex = pending ++ rest
  index : i = s.startIndex + pending.length
  chars : s.chars = content.drop s.startIndex
  count : s.numLines = wrapInt k
  plain : cr ∉ pending ∧ lf ∉ pending

theorem AtLine.length_le {content rest pending : Str} {i : Nat} {s : Splitting} {k : Int}
    (h : AtLine content rest i s pending k) : pending.length ≤ content.length := by
  have hlen := congrArg List.length h.rest_eq
  rw [List.length_drop, List.length_append] at hlen
  omega

/-- A byte of the line. -/
theorem AtLine.next {content rest pending : Str} {i : Nat} {s : Splitting} {k : Int} {ch : UInt8}
    (h : AtLine content (ch :: rest) i s pending k) (hcr : ch ≠ cr) (hlf : ch ≠ lf) :
    AtLine content rest (i + 1) s (pending ++ [ch]) k where
  rest_eq := by rw [h.rest_eq, List.append_assoc, List.singleton_append]
  index := by rw [h.index, List.length_append, List.length_singleton, Nat.add_assoc]
  chars := h.chars
  count := h.count
  plain := by
    obtain ⟨hc, hl⟩ := h.plain
    simp only [List.mem_append, List.mem_singleton, not_or]
    exact ⟨⟨hc, Ne.symm hcr⟩, hl, Ne.symm hlf⟩

/-- The line that ends at `i` is pushed. -/
theorem AtLine.push_array {content rest pending : Str} {i : Nat} {s : Splitting} {k : Int}
    (h : AtLine content rest i s pending k) (hsize : content.length < 2 ^ 64)
    (terminator : Str) :
    (s.push i).array = s.array ++ [RefLine.line content ⟨s.startIndex, pending, terminator⟩] := by
  have hlen := h.length_le
  unfold Splitting.push RefLine.line
  rw [h.index, h.chars, subSize_add (by omega)]

/-- A terminator of one byte. -/
theorem AtLine.line_end {content rest pending : Str} {i : Nat} {s : Splitting} {k : Int}
    {ch : UInt8} (h : AtLine content (ch :: rest) i s pending k) :
    AtLine content rest (i + 1) ((s.push i).startAt content (i + 1)) [] (k + 1) where
  rest_eq := by
    show content.drop (i + 1) = rest
    have hi : i + 1 = s.startIndex + (pending ++ [ch]).length := by
      rw [h.index, List.length_append, List.length_singleton, Nat.add_assoc]
    have hrest : pending ++ ch :: rest = (pending ++ [ch]) ++ rest := List.append_cons _ _ _
    rw [hi, ← List.drop_drop, h.rest_eq, hrest, List.drop_left]
  index := rfl
  chars := rfl
  count := by
    show wrapInt (s.numLines + 1) = _
    rw [h.count, wrapInt_wrapInt_add]
  plain := ⟨List.not_mem_nil, List.not_mem_nil⟩

/-- The last line. -/
def lastLine (content : Str) (s : Splitting) : Splitting :=
  if s.startIndex < content.length then s.push content.length else s

theorem splitSteps_end (content : Str) (i : Nat) (s : Splitting) {ch : UInt8} {rest : Str}
    (hend : ch = cr ∨ ch = lf) (hhead : ch = cr → rest.head? ≠ some lf) :
    splitSteps content (ch :: rest) i s =
      splitSteps content rest (i + 1) ((s.push i).startAt content (i + 1)) := by
  rw [splitSteps.eq_def]
  dsimp only
  by_cases hlf : ch = lf
  · exact if_pos hlf
  · have hcr : ch = cr := hend.resolve_right hlf
    exact (if_neg hlf).trans ((if_pos hcr).trans (if_neg (hhead hcr)))

/-- A content without a CR LF pair: from `i` on the loop appends the lines of the reference. -/
theorem splitSteps_refLines {content rest pending : Str} {i : Nat} {s : Splitting} {k : Int}
    (hsize : content.length < 2 ^ 64) (hpair : ¬ [cr, lf] <:+: rest)
    (h : AtLine content rest i s pending k) :
    (lastLine content (splitSteps content rest i s)).array =
        s.array ++ (refLines s.startIndex (pending ++ rest)).map (RefLine.line content) ∧
      (lastLine content (splitSteps content rest i s)).numLines =
        wrapInt (k + (refLines s.startIndex (pending ++ rest)).length) := by
  induction rest generalizing pending i s k with
  | nil =>
      have hlen := congrArg List.length h.rest_eq
      rw [List.length_drop, List.length_append, List.length_nil, Nat.add_zero] at hlen
      rw [List.append_nil, refLines_pending h.plain, splitSteps]
      unfold lastLine
      by_cases hp : pending = []
      · rw [hp, List.length_nil] at hlen
        rw [if_neg (by omega), if_pos hp, List.map_nil, List.append_nil, h.count]
        exact ⟨rfl, by rw [List.length_nil, Int.natCast_zero, Int.add_zero]⟩
      · have hpos : 0 < pending.length := List.length_pos_iff.mpr hp
        have hi : content.length = i := by
          rw [h.index]
          omega
        rw [if_pos (by omega), if_neg hp, hi]
        refine ⟨h.push_array hsize [], ?_⟩
        show wrapInt (s.numLines + 1) = _
        rw [h.count, wrapInt_wrapInt_add]
        rfl
  | cons ch rest ih =>
      have hpair' : ¬ [cr, lf] <:+: rest := fun hin =>
        hpair (hin.trans (List.suffix_cons ch rest).isInfix)
      by_cases hend : ch = cr ∨ ch = lf
      · -- the line ends here: no CR LF, so one byte is the terminator
        have hhead : ch = cr → rest.head? ≠ some lf := by
          intro hcr hhead
          obtain ⟨tail, rfl⟩ := List.head?_eq_some_iff.mp hhead
          exact hpair ⟨[], tail, by rw [hcr]; rfl⟩
        have hfirst : refLines (s.startIndex + pending.length) (ch :: rest) =
            ⟨s.startIndex + pending.length, [], [ch]⟩ :: refLines (i + 1) rest := by
          rw [refLines_end hend hhead, h.index]
        obtain ⟨harray, hnum⟩ := ih hpair' h.line_end
        rw [splitSteps_end content i s hend hhead, refLines_append h.plain hfirst, harray, hnum]
        have hline := h.push_array hsize [ch]
        refine ⟨?_, ?_⟩
        · rw [List.map_cons, List.append_nil, List.append_cons _ _ (List.map _ _), ← hline]
          rfl
        · have hcount : ((refLines (i + 1) rest).length : Int) + 1 =
              (RefLine.mk s.startIndex (pending ++ []) [ch] :: refLines (i + 1) rest).length :=
            rfl
          have hsum : k + 1 + ((refLines (i + 1) rest).length : Int) =
              k + (((refLines (i + 1) rest).length : Int) + 1) := by
            omega
          rw [← hcount, ← hsum]
          rfl
      · rw [not_or] at hend
        have hstep : splitSteps content (ch :: rest) i s = splitSteps content rest (i + 1) s := by
          rw [splitSteps.eq_def]
          exact (if_neg hend.2).trans (if_neg hend.1)
        rw [hstep, List.append_cons]
        exact ih hpair' (h.next hend.1 hend.2)

/-! ## The LF of a CR LF pair -/

/-- Every iteration goes on with the array, to which it may have added a line. -/
theorem splitSteps_next (content : Str) (ch : UInt8) (rest : Str) (i : Nat) (s : Splitting) :
    ∃ t : Splitting, s.array <+: t.array ∧
      splitSteps content (ch :: rest) i s = splitSteps content rest (i + 1) t := by
  have hpush : s.array <+: (s.push i).array := List.prefix_append _ _
  rw [splitSteps.eq_def]
  dsimp only
  split
  · exact ⟨(s.push i).startAt content (i + 1), hpush, rfl⟩
  · split
    · split
      · exact ⟨(s.push i).startAt content (i + 2), hpush, rfl⟩
      · exact ⟨(s.push i).startAt content (i + 1), hpush, rfl⟩
    · exact ⟨s, List.prefix_rfl, rfl⟩

theorem splitSteps_grows (content rest : Str) (i : Nat) (s : Splitting) :
    s.array <+: (splitSteps content rest i s).array := by
  induction rest generalizing i s with
  | nil => exact List.prefix_rfl
  | cons ch rest ih =>
      obtain ⟨t, hpre, hnext⟩ := splitSteps_next content ch rest i s
      rw [hnext]
      exact hpre.trans (ih (i + 1) t)

theorem lastLine_grows (content : Str) (s : Splitting) :
    s.array <+: (lastLine content s).array := by
  unfold lastLine
  split
  · exact List.prefix_append _ _
  · exact List.prefix_rfl

/-- At a CR LF pair the loop adds a line of the largest length. -/
theorem splitSteps_pair (content : Str) {rest : Str} (hpair : [cr, lf] <:+: rest) (i : Nat)
    (s : Splitting) :
    ∃ added l, s.array ++ added <+: (splitSteps content rest i s).array ∧ l ∈ added ∧
      l.len = 2 ^ 64 - 1 := by
  induction rest generalizing i s with
  | nil => exact absurd (List.eq_nil_of_infix_nil hpair) (List.cons_ne_nil _ _)
  | cons ch rest ih =>
      rcases List.infix_cons_iff.mp hpair with ⟨tail, htail⟩ | hin
      · obtain ⟨rfl, rfl⟩ : cr = ch ∧ lf :: tail = rest := List.cons.inj htail
        -- the CR sets `start_index` to `i + 2`, the LF at `i + 1` ends a line there
        let first : Line := ⟨s.chars, subSize i s.startIndex⟩
        let second : Line := ⟨content.drop (i + 2), subSize (i + 1) (i + 2)⟩
        have hsize : second.len = 2 ^ 64 - 1 := by
          show subSize (i + 1) (i + 2) = 2 ^ 64 - 1
          unfold subSize
          omega
        have hgrows := splitSteps_grows content tail (i + 1 + 1)
          ((((s.push i).startAt content (i + 2)).push (i + 1)).startAt content (i + 1 + 1))
        refine ⟨[first, second], second, ?_, by simp, hsize⟩
        rw [List.append_cons]
        exact hgrows
      · obtain ⟨t, ⟨line, hline⟩, hnext⟩ := splitSteps_next content ch rest i s
        obtain ⟨added, l, hpre, hl, hlen⟩ := ih hin (i + 1) t
        refine ⟨line ++ added, l, ?_, List.mem_append_right _ hl, hlen⟩
        rw [hnext, ← List.append_assoc, hline]
        exact hpre

/-! ## The lines that a call appends -/

theorem splitSteps_splitLoop (content rest : Str) {before lines : List Line} {start : Nat} (i : Nat)
    {s : Splitting} (harray : s.array = before ++ lines) (hstart : s.startIndex = start)
    (hchars : s.chars = content.drop start) :
    (splitSteps content rest i s).startIndex = (splitLoop content rest i start lines).1 ∧
      (splitSteps content rest i s).chars =
        content.drop (splitLoop content rest i start lines).1 ∧
      (splitSteps content rest i s).array =
        before ++ (splitLoop content rest i start lines).2 := by
  induction rest generalizing i s start lines with
  | nil => exact ⟨hstart, hchars, harray⟩
  | cons ch rest ih =>
      have hpush : (s.push i).array =
          before ++ (lines ++ [⟨content.drop start, subSize i start⟩]) := by
        rw [← List.append_assoc, ← harray, ← hchars, ← hstart]
        rfl
      rw [splitSteps.eq_def, splitLoop.eq_def]
      dsimp only
      split
      · exact ih (i + 1) hpush rfl rfl
      · split
        · split
          · exact ih (i + 1) hpush rfl rfl
          · exact ih (i + 1) hpush rfl rfl
        · exact ih (i + 1) harray hstart hchars

/-- The call appends `splitFile content`, whatever the array holds. -/
theorem splitFileSlice_array (content : Str) (lines : List Line) :
    (splitFileSlice content lines).1 = lines ++ splitFile content := by
  have hstart : (⟨lines, 0, content, 0⟩ : Splitting).array = lines ++ [] :=
    (List.append_nil lines).symm
  obtain ⟨hindex, hchars, harray⟩ := splitSteps_splitLoop content content 0 hstart rfl rfl
  unfold splitFileSlice splitFile
  dsimp only
  rw [hindex]
  split
  · show (splitSteps content content 0 ⟨lines, 0, content, 0⟩).array ++ _ = _
    rw [harray, hchars, hindex, List.append_assoc]
  · exact harray

/-- Without a CR LF pair the call appends the lines of the reference, and counts them as an
    `int`. -/
theorem splitFileSlice_refLines {content : Str} (lines : List Line)
    (hsize : content.length < 2 ^ 64) (hpair : ¬ [cr, lf] <:+: content) :
    (splitFileSlice content lines).1 = lines ++ (refLines 0 content).map (RefLine.line content) ∧
      (splitFileSlice content lines).2.numLines = wrapInt (refLines 0 content).length := by
  have hat : AtLine content content 0 ⟨lines, 0, content, 0⟩ [] 0 :=
    ⟨rfl, rfl, rfl, rfl, List.not_mem_nil, List.not_mem_nil⟩
  have hlines := splitSteps_refLines hsize hpair hat
  rw [Int.zero_add] at hlines
  exact hlines

theorem splitFile_refLines {content : Str} (hsize : content.length < 2 ^ 64)
    (hpair : ¬ [cr, lf] <:+: content) :
    splitFile content = (refLines 0 content).map (RefLine.line content) := by
  have harray := splitFileSlice_array content []
  rw [(splitFileSlice_refLines [] hsize hpair).1, List.nil_append, List.nil_append] at harray
  exact harray.symm

/-! ## Exactly at the terminators -/

/-- The call appends the lines of the reference, each a slice of the content without a
    terminator in it, and returns their number. -/
structure SplitsExactly (content : Str) (lines : List Line) : Prop where
  array : (splitFileSlice content lines).1 =
    lines ++ (refLines 0 content).map (RefLine.line content)
  number : (splitFileSlice content lines).2.numLines = (refLines 0 content).length
  slices : ∀ l ∈ refLines 0 content, l.offset + l.text.length ≤ content.length ∧
    (content.drop l.offset).take l.text.length = l.text ∧ cr ∉ l.text ∧ lf ∉ l.text
  rejoin : (refLines 0 content).flatMap (fun l => l.text ++ l.terminator) = content

/-- The lines are those of the reference exactly when the content has no CR LF pair and no more
    lines than an `int` counts. -/
theorem splits_exactly_iff (content : Str) (lines : List Line)
    (hsize : content.length < 2 ^ 64) :
    SplitsExactly content lines ↔
      ¬ [cr, lf] <:+: content ∧ (refLines 0 content).length < 2 ^ 31 := by
  constructor
  · intro h
    have hpair : ¬ [cr, lf] <:+: content := by
      intro hpair
      obtain ⟨added, l, hpre, hl, hlen⟩ := splitSteps_pair content hpair 0 ⟨lines, 0, content, 0⟩
      have hmem : l ∈ (refLines 0 content).map (RefLine.line content) := by
        have hall := hpre.trans (lastLine_grows content _)
        rw [show (lastLine content _).array = _ from h.array, List.prefix_append_right_inj] at hall
        exact hall.subset hl
      obtain ⟨ref, href, rfl⟩ := List.mem_map.mp hmem
      obtain ⟨hle, htake, hcr, -⟩ := h.slices ref href
      -- such a line would be the whole content, but the content has a CR
      have hlen' : ref.text.length = 2 ^ 64 - 1 := hlen
      have hwhole : ref.text = content := by
        rw [show ref.offset = 0 by omega, List.drop_zero,
          List.take_of_length_le (by omega)] at htake
        exact htake.symm
      exact hcr (hwhole ▸ hpair.subset List.mem_cons_self)
    refine ⟨hpair, ?_⟩
    have hwrap := (splitFileSlice_refLines lines hsize hpair).2.symm.trans h.number
    have hlt := (wrapInt_eq_self_iff (Int.natCast_nonneg _)).mp hwrap
    omega
  · rintro ⟨hpair, hfew⟩
    obtain ⟨harray, hnum⟩ := splitFileSlice_refLines lines hsize hpair
    refine ⟨harray, ?_, ?_, refLines_rejoin 0 content⟩
    · rw [hnum]
      exact (wrapInt_eq_self_iff (Int.natCast_nonneg _)).mpr (by omega)
    · intro l hl
      obtain ⟨-, hle, htake⟩ := refLines_sliceOf 0 content l hl
      exact ⟨by omega, htake, refLines_plain 0 content l hl⟩

theorem splits_exactly_mixed :
    SplitsExactly [0x61, lf, cr, 0x62] [] ↔
      ¬ [cr, lf] <:+: [0x61, lf, cr, 0x62] ∧ (refLines 0 [0x61, lf, cr, 0x62]).length < 2 ^ 31 :=
  splits_exactly_iff [0x61, lf, cr, 0x62] [] (by decide)

/-- The content `"\r\n"` is one empty line, the call appends two. -/
theorem crlf_splits_twice :
    (splitFileSlice [cr, lf] []).1 = [⟨[cr, lf], 0⟩, ⟨[], 2 ^ 64 - 1⟩] ∧
      refLines 0 [cr, lf] = [⟨0, [], [cr, lf]⟩] ∧ ¬ SplitsExactly [cr, lf] [] := by
  refine ⟨by decide, by decide, fun h => ?_⟩
  exact absurd h.array (by decide)

end BuxnLs.Analysis
