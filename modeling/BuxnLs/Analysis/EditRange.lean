/-
  The edit range of a completion. The offsets are exact until they are stored as ints, so the
  range covers what it replaces for every line and cursor whose byte offset fits in an int, and
  for none beyond that. In between the edit starts at the prefix or behind a single-byte
  character of it (`textEditStart_cases`), hence at a character boundary (`edit_boundary`), and
  there the two conversions are inverse.
-/
import BuxnLs.Analysis.Completion
import BuxnLs.Analysis.Offsets
import BuxnLs.Analysis.Split
import BuxnLs.Model.EditRange

namespace BuxnLs.Analysis

open BuxnLs.Lib BuxnLs.Model

/-! ## The prefix -/

def IsBlank (ch : UInt8) : Prop := ch = 0x20 ∨ ch = 0x09

instance : DecidablePred IsBlank := fun ch => inferInstanceAs (Decidable (ch = 0x20 ∨ ch = 0x09))

/-- The bytes from `start` up to `stop` are a run without blanks. -/
structure IsRun (text : Str) (start stop : Nat) : Prop where
  start_le : start ≤ stop
  stop_le : stop ≤ text.length
  noBlank : ∀ ch ∈ (text.take stop).drop start, ¬ IsBlank ch

structure LongestRun (text : Str) (start stop : Nat) : Prop where
  isRun : IsRun text start stop
  longest : ∀ s, IsRun text s stop → start ≤ s

/-- The run without blanks at the end of a text. -/
def lastRun (text : Str) : Str := text.rtakeWhile fun ch => ¬ IsBlank ch

/-- What stands in front of that run. -/
def beforeRun (text : Str) : Str := text.rdropWhile fun ch => ¬ IsBlank ch

theorem beforeRun_append_lastRun (text : Str) : beforeRun text ++ lastRun text = text :=
  List.rdropWhile_append_rtakeWhile

theorem completionStart_eq (chars : Str) {stop : Nat} (h : stop ≤ chars.length) :
    completionStart chars stop = (beforeRun (chars.take stop)).length := by
  have hlen := congrArg List.length (beforeRun_append_lastRun (chars.take stop))
  have hrun : lastRun (chars.take stop) = ((chars.take stop).reverse.takeWhile
      fun ch => ch ≠ 0x20 ∧ ch ≠ 0x09).reverse := by
    unfold lastRun List.rtakeWhile IsBlank
    simp only [not_or]
  rw [List.length_append, hrun, List.length_reverse, List.length_take, Nat.min_eq_left h] at hlen
  unfold completionStart
  omega

theorem drop_beforeRun (text : Str) : text.drop (beforeRun text).length = lastRun text := by
  have hleft : (beforeRun text ++ lastRun text).drop (beforeRun text).length = lastRun text :=
    List.drop_left
  rwa [beforeRun_append_lastRun] at hleft

/-- The byte in front of the run is a blank. -/
theorem blank_beforeRun {text : Str} (h : beforeRun text ≠ []) :
    ∃ ch, text[(beforeRun text).length - 1]? = some ch ∧ IsBlank ch := by
  refine ⟨(beforeRun text).getLast h, ?_, ?_⟩
  · have hpos := List.length_pos_iff.mpr h
    have hleft : (beforeRun text ++ lastRun text)[(beforeRun text).length - 1]? =
        (beforeRun text)[(beforeRun text).length - 1]? :=
      List.getElem?_append_left (by omega)
    rw [beforeRun_append_lastRun] at hleft
    rw [hleft, ← List.getLast?_eq_getElem?, List.getLast?_eq_some_getLast h]
  · have hlast := List.rdropWhile_last_not (fun ch => ¬ IsBlank ch) text h
    simpa [beforeRun] using hlast

theorem longestRun_beforeRun (text : Str) {stop : Nat} (h : stop ≤ text.length) :
    LongestRun text (beforeRun (text.take stop)).length stop := by
  have hlen := congrArg List.length (beforeRun_append_lastRun (text.take stop))
  rw [List.length_append, List.length_take, Nat.min_eq_left h] at hlen
  refine ⟨⟨by omega, h, ?_⟩, ?_⟩
  · rw [drop_beforeRun]
    intro ch hch
    simpa using List.mem_rtakeWhile_imp hch
  · intro s hs
    by_contra hlt
    have hne : beforeRun (text.take stop) ≠ [] := by
      intro hnil
      rw [hnil] at hlt
      exact hlt (Nat.zero_le s)
    obtain ⟨ch, hch, hblank⟩ := blank_beforeRun hne
    refine hs.noBlank ch ?_ hblank
    apply List.mem_of_getElem? (i := (beforeRun (text.take stop)).length - 1 - s)
    rw [List.getElem?_drop, ← hch]
    congr 1
    omega

/-! ## Boundaries -/

/-- A byte below `0x80` of valid text is a character of its own. -/
theorem ascii_boundary {cs : List Char} {j : Nat} {ch : UInt8}
    (h : (utf8 cs)[j]? = some ch) (hascii : ch.toNat < 0x80) :
    ∃ k, (utf8 (cs.take k)).length = j ∧ (utf8 (cs.take (k + 1))).length = j + 1 ∧
      ∃ c, cs[k]? = some c ∧ c.toNat = ch.toNat := by
  induction cs generalizing j with
  | nil => cases h
  | cons c cs ih =>
      have hsize := String.length_utf8EncodeChar c
      by_cases hj : j < c.utf8Size
      · rw [utf8_cons, List.getElem?_append_left (by omega)] at h
        have hc := toNat_of_mem_utf8EncodeChar (List.mem_of_getElem? h) hascii
        have hone : c.utf8Size = 1 := by
          rw [Char.utf8Size_eq_one_iff]
          have hval : c.val.toNat = c.toNat := rfl
          exact UInt32.le_iff_toNat_le.mpr (show c.val.toNat ≤ 127 by omega)
        refine ⟨0, ?_, ?_, c, rfl, hc⟩
        · simp
          omega
        · simp [hone]
          omega
      · rw [utf8_cons, List.getElem?_append_right (by omega), hsize] at h
        obtain ⟨k, hk, hk', hc⟩ := ih h
        refine ⟨k + 1, ?_, ?_, hc⟩
        · rw [List.take_succ_cons, utf8_cons, List.length_append, hk, hsize]
          omega
        · rw [List.take_succ_cons, utf8_cons, List.length_append, hk', hsize]
          omega

/-! ## The start of the edit -/

theorem slashLoop_some {read : Int → UInt8} {more : Nat} {i j : Int}
    (h : slashLoop read more i = some j) : i ≤ j ∧ j < i + more ∧ read j = slash := by
  induction more generalizing i with
  | zero => cases h
  | succ more ih =>
      unfold slashLoop at h
      split at h
      · next hread =>
          cases h
          exact ⟨Int.le_refl _, by omega, hread⟩
      · obtain ⟨hle, hlt, hread⟩ := ih h
        exact ⟨by omega, by omega, hread⟩

/-- The runes that stay in front of the edit are ASCII. -/
theorem runeMatch_ascii {rune : UInt8} {matchType : MatchType}
    (h : runeMatch rune = some matchType) (hne : matchType ≠ .anySymbol) : rune.toNat < 0x80 := by
  by_contra hge
  have hother : runeMatch rune = some .anySymbol := by
    unfold runeMatch
    rw [if_neg, if_neg, if_neg, if_neg, if_neg, if_neg, if_neg] <;>
      rintro (rfl | rfl) <;> exact hge (by decide)
  rw [hother] at h
  exact hne (Option.some.inj h).symm

theorem runeMatch_isSome_iff (rune : UInt8) : (runeMatch rune).isSome ↔ rune ≠ 0x26 := by
  constructor
  · rintro h rfl
    exact absurd h (by decide)
  · intro hne
    unfold runeMatch
    split_ifs <;> rfl

namespace StoredLine

variable (l : StoredLine) (u : Utf8proc)

/-- `byte_offset` of the handler. -/
def cursorByte (character : Int) : Nat := (l.byteAt u character).toNat

/-- `completion_start` of the handler. -/
def prefixStart (character : Int) : Nat :=
  completionStart l.line.chars (l.cursorByte u character)

theorem cast_cursorByte (character : Int) :
    (l.cursorByte u character : Int) = l.byteAt u character := by
  have hnonneg : 0 ≤ l.byteAt u character := by
    rw [l.byteAt_eq]
    exact Int.natCast_nonneg _
  exact Int.toNat_of_nonneg hnonneg

theorem cursorByte_le (character : Int) : l.cursorByte u character ≤ l.bytes.length := by
  have hle := l.byteAt_le_length u character
  rw [← l.cast_cursorByte] at hle
  exact Int.ofNat_le.mp hle

theorem take_cursorByte (character : Int) :
    l.line.chars.take (l.cursorByte u character) = l.bytes.take (l.cursorByte u character) :=
  List.take_append_of_le_length (l.cursorByte_le u character)

theorem prefixStart_eq (character : Int) :
    l.prefixStart u character = (beforeRun (l.bytes.take (l.cursorByte u character))).length := by
  have hle := l.cursorByte_le u character
  rw [prefixStart, completionStart_eq _ (by rw [line, List.length_append]; omega),
    l.take_cursorByte]

theorem prefixStart_longest (character : Int) :
    LongestRun l.bytes (l.prefixStart u character) (l.cursorByte u character) := by
  rw [l.prefixStart_eq]
  exact longestRun_beforeRun _ (l.cursorByte_le u character)

theorem editCtx_typed (character : Int) :
    (editCtx u l.line character).typed = lastRun (l.bytes.take (l.cursorByte u character)) := by
  show (l.line.chars.take (l.cursorByte u character)).drop (l.prefixStart u character) = _
  rw [l.take_cursorByte, l.prefixStart_eq, drop_beforeRun]

/-- A byte of the prefix in the line. -/
theorem getElem?_typed (character : Int) {i : Nat} {ch : UInt8}
    (h : (editCtx u l.line character).typed[i]? = some ch) :
    l.prefixStart u character + i < l.cursorByte u character ∧
      l.bytes[l.prefixStart u character + i]? = some ch := by
  have hline : ((l.line.chars.take (l.cursorByte u character)).drop
      (l.prefixStart u character))[i]? = some ch := h
  rw [l.take_cursorByte, List.getElem?_drop, List.getElem?_take] at hline
  split at hline
  · next hlt => exact ⟨hlt, hline⟩
  · cases hline

/-- Where an edit may start: at the prefix, or behind an ASCII byte of it. -/
inductive EditStart (character : Int) : Int → Prop where
  | run : l.prefixStart u character < l.cursorByte u character →
      EditStart character (l.prefixStart u character)
  | behind {j : Nat} {ch : UInt8} : l.prefixStart u character ≤ j →
      j < l.cursorByte u character → l.bytes[j]? = some ch → ch.toNat < 0x80 →
      EditStart character (j + 1)

variable {l u}

theorem charAt_eq (outside : Int → UInt8) {j : Nat} (h : j < l.bytes.length) :
    l.bytes[j]? = some (charAt outside l.line.chars j) := by
  have hbyte : l.line.chars[j]? = l.bytes[j]? := List.getElem?_append_left h
  unfold charAt
  rw [if_pos (Int.natCast_nonneg j), Int.toNat_natCast, List.getD_eq_getElem?_getD, hbyte,
    List.getElem?_eq_getElem h]
  rfl

theorem textEditStart_cases {outside : Int → UInt8} {character t : Int}
    (hsmall : l.cursorByte u character < 2 ^ 31)
    (h : textEditStart outside (editCtx u l.line character) = some t) :
    l.EditStart u character t := by
  have hstart := (wrapInt_eq_self_iff (Int.natCast_nonneg (l.prefixStart u character))).mpr (by
    have := (l.prefixStart_longest u character).isRun.start_le
    omega)
  have hstop := (wrapInt_eq_self_iff (Int.natCast_nonneg (l.cursorByte u character))).mpr
    (by omega)
  unfold textEditStart at h
  split at h
  · cases h
  · next rune rest htyped =>
      obtain ⟨matchType, hmatch, ht⟩ := Option.map_eq_some_iff.mp h
      have hfirst := l.getElem?_typed u character (i := 0) (by rw [htyped]; rfl)
      have hctx : (editCtx u l.line character).prefixStartByte = l.prefixStart u character :=
        hstart
      have hend : (editCtx u l.line character).prefixEndByte = l.cursorByte u character := hstop
      rw [Nat.add_zero] at hfirst
      rw [hctx, hend] at ht
      split at ht
      · -- `&` or `/` behind a shorthand
        next hmarked =>
          obtain ⟨ch, hch, hascii⟩ : ∃ ch, rest.head? = some ch ∧ ch.toNat < 0x80 := by
            rcases hmarked.2 with hm | hm
            · exact ⟨_, hm, by decide⟩
            · exact ⟨_, hm, by decide⟩
          have hsecond : (editCtx u l.line character).typed[1]? = some ch := by
            rw [htyped, List.getElem?_cons_succ, ← List.head?_eq_getElem?, hch]
          obtain ⟨hlt, hbyte⟩ := l.getElem?_typed u character hsecond
          have hwrap := (wrapInt_eq_self_iff
            (Int.natCast_nonneg (l.prefixStart u character + 2))).mpr (by omega)
          have heq : t = ((l.prefixStart u character + 1 : Nat) : Int) + 1 := by
            push_cast at hwrap
            omega
          rw [heq]
          exact .behind (by omega) hlt hbyte hascii
      · have hnext := (wrapInt_eq_self_iff
          (Int.natCast_nonneg (l.prefixStart u character + 1))).mpr (by omega)
        push_cast at hnext
        simp only [hnext] at ht
        split at ht
        · -- a slash in the prefix
          next i hloop =>
            obtain ⟨hle, hlt, hread⟩ := slashLoop_some hloop
            obtain ⟨j, rfl⟩ := Int.eq_ofNat_of_zero_le (show 0 ≤ i by omega)
            have hj : j < l.cursorByte u character := by omega
            have hbyte := charAt_eq (l := l) outside
              (Nat.lt_of_lt_of_le hj (l.cursorByte_le u character))
            have hwrap := (wrapInt_eq_self_iff (Int.natCast_nonneg (j + 1))).mpr (by omega)
            push_cast at hwrap
            rw [show charAt outside l.line.chars j = slash from hread] at hbyte
            rw [← ht, hwrap]
            exact .behind (by omega) hj hbyte (by decide)
        · split at ht
          · rw [← ht]
            exact .run hfirst.1
          · next hshorthand =>
              rw [← ht]
              exact .behind (Nat.le_refl _) hfirst.1 hfirst.2 (runeMatch_ascii hmatch hshorthand)

/-! ## The range -/

theorem boundary_utf8 (hu : u.DecodesUtf8) {cs : List Char} (hcs : l.bytes = utf8 cs) (k : Nat) :
    l.boundary u k = (utf8 (cs.take k)).length := by
  rw [boundary_eq, hcs, cut_units_utf8 hu]

/-- A character below U+10000 is one code unit. -/
theorem utf16At_succ (hu : u.DecodesUtf8) {cs : List Char} (hcs : l.bytes = utf8 cs) {k : Nat}
    {c : Char} (hc : cs[k]? = some c) (hsmall : c.toNat ≤ 0xffff) :
    l.utf16At u (l.boundary u (k + 1)) = l.utf16At u (l.boundary u k) + 1 := by
  have hlast : cut TextUnit.utf16Length (cs.map charUnit) (k + 1) =
      cut TextUnit.utf16Length (cs.map charUnit) k + (charUnit c).utf16Length := by
    simp [cut, List.take_add_one, hc]
  rw [utf16At_boundary, utf16At_boundary, hcs, units_utf8 hu, hlast,
    show (charUnit c).utf16Length = 1 from if_pos hsmall]
  rfl

/-- In valid text an edit starts at a boundary, and not behind the cursor. -/
theorem edit_boundary (hu : u.DecodesUtf8) {cs : List Char} (hcs : l.bytes = utf8 cs)
    {character t : Int} (h : l.EditStart u character t) :
    ∃ k, t = (utf8 (cs.take k)).length ∧ l.utf16At u t ≤ character := by
  cases h with
  | run hlt =>
      obtain ⟨k, hk⟩ : ∃ k, (utf8 (cs.take k)).length = l.prefixStart u character := by
        by_cases hnil : beforeRun (l.bytes.take (l.cursorByte u character)) = []
        · exact ⟨0, by rw [l.prefixStart_eq, hnil]; rfl⟩
        · obtain ⟨ch, hch, hblank⟩ := blank_beforeRun hnil
          have hpos := List.length_pos_iff.mpr hnil
          rw [← l.prefixStart_eq] at hch hpos
          have hascii : ch.toNat < 0x80 := by rcases hblank with rfl | rfl <;> decide
          rw [List.getElem?_take_of_lt (by omega), hcs] at hch
          obtain ⟨k, -, hk, -⟩ := ascii_boundary hch hascii
          exact ⟨k + 1, by omega⟩
      have hboundary := boundary_utf8 hu hcs k
      have hbefore := l.utf16At_lt u (x := character) (k := k) (by
        rw [hboundary, hk, ← l.cast_cursorByte]
        exact Int.ofNat_lt.mpr hlt)
      rw [hboundary, hk] at hbefore
      exact ⟨k, by rw [hk], Int.le_of_lt hbefore⟩
  | @behind j ch _ hlt hbyte hascii =>
      rw [hcs] at hbyte
      obtain ⟨k, hk, hk', c, hc, hval⟩ := ascii_boundary hbyte hascii
      have hbefore := l.utf16At_lt u (x := character) (k := k) (by
        rw [boundary_utf8 hu hcs, hk, ← l.cast_cursorByte]
        exact Int.ofNat_lt.mpr hlt)
      have hnext := utf16At_succ hu hcs hc (by omega)
      rw [boundary_utf8 hu hcs, hk'] at hnext
      refine ⟨k + 1, by rw [hk']; rfl, ?_⟩
      push_cast at hnext
      omega

variable (l u)

/-- The edit at `t` replaces the text from byte `t` up to the cursor. -/
structure Replaces (character t : Int) : Prop where
  start_le : (editCtx u l.line character).prefixStartByte ≤ t
  le_stop : t ≤ (editCtx u l.line character).prefixEndByte
  ordered : lspTextEditStart u (editCtx u l.line character) t ≤
    (editCtx u l.line character).lspEnd
  start_back : l.byteAt u (lspTextEditStart u (editCtx u l.line character) t) = t
  stop_back : l.byteAt u (editCtx u l.line character).lspEnd =
    (editCtx u l.line character).prefixEndByte

/-- The edit range covers exactly the text it replaces. -/
structure EditCovers (outside : Int → UInt8) (character : Int) : Prop where
  typed : (editCtx u l.line character).typed =
    (l.bytes.take (l.cursorByte u character)).drop (l.prefixStart u character)
  run : LongestRun l.bytes (l.prefixStart u character) (l.cursorByte u character)
  edit : ∀ t, textEditStart outside (editCtx u l.line character) = some t →
    l.Replaces u character t

/-- Nothing is offered, or the byte offset of the cursor is an `int`. -/
def CursorFits (character : Int) : Prop :=
  ∀ rune ∈ (lastRun (l.bytes.take (l.cursorByte u character))).head?, rune ≠ 0x26 →
    l.byteAt u character < 2 ^ 31

variable {l u}

theorem textEditStart_isSome_iff (outside : Int → UInt8) (ctx : EditCtx) :
    (textEditStart outside ctx).isSome ↔ ∃ rune ∈ ctx.typed.head?, rune ≠ 0x26 := by
  unfold textEditStart
  split
  · next htyped => simp [htyped]
  · next rune rest htyped =>
      rw [Option.isSome_map, runeMatch_isSome_iff, htyped]
      simp

theorem replaces_of_lt (hu : u.DecodesUtf8) {cs : List Char} (hcs : l.bytes = utf8 cs)
    {outside : Int → UInt8} {character t : Int} (hchar : character < 2 ^ 31)
    (hsmall : l.byteAt u character < 2 ^ 31)
    (h : textEditStart outside (editCtx u l.line character) = some t) :
    l.Replaces u character t := by
  rw [← l.cast_cursorByte] at hsmall
  have hrun := (l.prefixStart_longest u character).isRun.start_le
  have hstart : (editCtx u l.line character).prefixStartByte = l.prefixStart u character :=
    (wrapInt_eq_self_iff (Int.natCast_nonneg (l.prefixStart u character))).mpr (by omega)
  have hstop : (editCtx u l.line character).prefixEndByte = l.cursorByte u character :=
    (wrapInt_eq_self_iff (Int.natCast_nonneg _)).mpr hsmall
  have hcases := textEditStart_cases (Int.ofNat_lt.mp hsmall) h
  obtain ⟨k, hk, hle⟩ := edit_boundary hu hcs hcases
  have hnonneg : 0 ≤ l.utf16At u t := by
    rw [utf16At_eq]
    exact Int.natCast_nonneg _
  have hlsp : lspTextEditStart u (editCtx u l.line character) t = l.utf16At u t :=
    (wrapInt_eq_self_iff hnonneg).mpr (Int.lt_of_le_of_lt hle hchar)
  refine ⟨?_, ?_, ?_, ?_, ?_⟩
  · rw [hstart]
    cases hcases with
    | run => exact Int.le_refl _
    | behind hj => omega
  · rw [hstop]
    cases hcases with
    | run => omega
    | behind _ hj => omega
  · rw [hlsp]
    exact hle
  · rw [hlsp, hk]
    exact l.byteAt_utf16At hu hcs k
  · rw [hstop, l.cast_cursorByte]
    rfl

theorem cursorFits_of_covers {outside : Int → UInt8} {character : Int}
    (h : l.EditCovers u outside character) : l.CursorFits u character := by
  intro rune hrune hne
  rw [← l.editCtx_typed] at hrune
  have hsome := (textEditStart_isSome_iff outside (editCtx u l.line character)).mpr
    ⟨rune, hrune, hne⟩
  obtain ⟨t, ht⟩ := Option.isSome_iff_exists.mp hsome
  have hback : l.byteAt u character = wrapInt (l.cursorByte u character) :=
    (h.edit t ht).stop_back
  rw [← l.cast_cursorByte] at hback ⊢
  exact (wrapInt_eq_self_iff (Int.natCast_nonneg _)).mp hback.symm

end StoredLine

/-- The edit range covers exactly the text it replaces if and only if nothing is offered or the
    byte offset of the cursor is an `int`. -/
theorem editCovers_iff {u : Utf8proc} (hu : u.DecodesUtf8) (l : StoredLine) {cs : List Char}
    (hcs : l.bytes = utf8 cs) (outside : Int → UInt8) {character : Int}
    (hchar : character < 2 ^ 31) :
    l.EditCovers u outside character ↔ l.CursorFits u character := by
  constructor
  · exact StoredLine.cursorFits_of_covers
  · intro hfits
    refine ⟨?_, l.prefixStart_longest u character, ?_⟩
    · rw [l.editCtx_typed, l.prefixStart_eq, drop_beforeRun]
    · intro t ht
      have hsome := Option.isSome_of_eq_some ht
      obtain ⟨rune, hrune, hne⟩ := (StoredLine.textEditStart_isSome_iff _ _).mp hsome
      rw [l.editCtx_typed] at hrune
      exact StoredLine.replaces_of_lt hu hcs hchar (hfits rune hrune hne) ht

/-- An emoji, a blank and `;é/b` before the cursor. -/
theorem editCovers_emoji :
    (⟨utf8 ['😀', ' ', ';', 'é', '/', 'b'], [lf], by decide⟩ : StoredLine).EditCovers charUtf8proc
      (fun _ => 0) 7 :=
  (editCovers_iff charUtf8proc_decodes ⟨utf8 ['😀', ' ', ';', 'é', '/', 'b'], [lf], by decide⟩ rfl
    (fun _ => 0) (by decide)).mpr fun _ _ _ =>
      Int.lt_of_le_of_lt (StoredLine.byteAt_le_length _ _ _) (by decide)

/-! ## A line of `2 ^ 31` bytes -/

/-- `n` times `é`, which is two bytes and one code unit. -/
def accents (n : Nat) : List Char := List.replicate n 'é'

theorem length_utf8_accents (n : Nat) : (utf8 (accents n)).length = 2 * n := by
  induction n with
  | zero => rfl
  | succ n ih =>
      rw [accents, List.replicate_succ, utf8_cons, List.length_append, ← accents, ih]
      show 2 + 2 * n = 2 * (n + 1)
      omega

def longLine (n : Nat) (h : n < 2 ^ 62) : StoredLine where
  bytes := utf8 (accents n)
  behind := [lf]
  fits := by
    rw [length_utf8_accents]
    omega

theorem byteAt_accents {n : Nat} (h : n < 2 ^ 62) :
    (longLine n h).byteAt charUtf8proc n = 2 * n := by
  have hunits : (longLine n h).utf16At charUtf8proc (2 * n : Nat) = n := by
    have hlen : (longLine n h).bytes.length = 2 * n := length_utf8_accents n
    rw [← hlen, StoredLine.utf16At_length, longLine, units_utf8 charUtf8proc_decodes, accents,
      List.map_replicate, List.map_replicate, List.sum_replicate]
    simp [charUnit, TextUnit.utf16Length]
  have hback := (longLine n h).byteAt_utf16At charUtf8proc_decodes rfl n
  rw [List.take_of_length_le (by simp [accents]), length_utf8_accents, hunits] at hback
  exact_mod_cast hback

theorem lastRun_accents (n : Nat) : lastRun (utf8 (accents n)) = utf8 (accents n) := by
  apply List.rtakeWhile_eq_self_iff.mpr
  intro ch hch
  obtain ⟨c, hc, hmem⟩ := List.mem_flatMap.mp hch
  rw [List.eq_of_mem_replicate hc] at hmem
  have hbytes : ch = 0xc3 ∨ ch = 0xa9 := by simpa [String.utf8EncodeChar] using hmem
  rcases hbytes with rfl | rfl <;> decide

theorem not_cursorFits_accents {n : Nat} (h : n < 2 ^ 62) (hlarge : 2 ^ 30 ≤ n) :
    ¬ (longLine n h).CursorFits charUtf8proc n := by
  intro hfits
  obtain ⟨m, rfl⟩ : ∃ m, n = m + 1 := ⟨n - 1, by omega⟩
  have hcursor : (longLine (m + 1) h).cursorByte charUtf8proc (m + 1 : Nat) = 2 * (m + 1) := by
    have hcast := (longLine (m + 1) h).cast_cursorByte charUtf8proc (m + 1 : Nat)
    rw [byteAt_accents] at hcast
    exact_mod_cast hcast
  have hrun : lastRun ((longLine (m + 1) h).bytes.take
      ((longLine (m + 1) h).cursorByte charUtf8proc (m + 1 : Nat))) =
        0xc3 :: 0xa9 :: utf8 (accents m) := by
    rw [hcursor, ← length_utf8_accents, longLine, List.take_length, lastRun_accents]
    rfl
  have hlt := hfits 0xc3 (by rw [hrun]; rfl) (by decide)
  rw [byteAt_accents] at hlt
  omega

theorem editCovers_fails :
    ¬ ∀ (u : Utf8proc) (l : StoredLine) (cs : List Char) (outside : Int → UInt8)
        (character : Int), u.DecodesUtf8 → l.bytes = utf8 cs → lf ∉ l.bytes → cr ∉ l.bytes →
        0 ≤ character → character < 2 ^ 31 → l.EditCovers u outside character := by
  intro h
  have hline : ∀ c ∈ accents (2 ^ 30), c = 'é' := fun c hc => List.eq_of_mem_replicate hc
  have hcovers := h charUtf8proc (longLine (2 ^ 30) (by decide)) (accents (2 ^ 30)) (fun _ => 0)
    (2 ^ 30 : Nat) charUtf8proc_decodes rfl
    (lf_notMem_utf8 fun hmem => absurd (hline _ hmem) (by decide))
    (cr_notMem_utf8 fun hmem => absurd (hline _ hmem) (by decide))
    (Int.natCast_nonneg _) (by decide)
  exact not_cursorFits_accents (by decide) (Nat.le_refl _)
    (StoredLine.cursorFits_of_covers hcovers)

/-! ## The search without ints -/

/-- The fields of a context as ints. -/
def intFields (ctx : CompletionCtx) : EditCtx where
  lineContent := ctx.lineContent
  typed := ctx.typed
  lspStart := wrapInt ctx.lspRange.start.character
  lspEnd := ctx.lspRange.stop.character
  prefixStartByte := wrapInt ctx.prefixStartByte
  prefixEndByte := wrapInt ctx.prefixEndByte

/-- How the handler's context comes from its line and the cursor. -/
theorem completionCtx_fields {E : Env} {c : AnalyzerCtx} {docs : Docs} {path : Str}
    {position : Position} {ctx : CompletionCtx}
    (h : completionCtx E c docs path position = some ctx) :
    ctx.prefixEndByte =
        (byteOffsetFromUtf16Offset E.utf8proc ctx.lineContent position.character).toNat ∧
      ctx.prefixStartByte = completionStart ctx.lineContent.chars ctx.prefixEndByte ∧
      intFields ctx = editCtx E.utf8proc ctx.lineContent position.character := by
  unfold completionCtx at h
  split at h
  · cases h
  · dsimp only at h
    split at h
    · cases h
    · split at h
      · cases h
      · split at h
        · cases h
        · obtain ⟨src, -, rfl⟩ := Option.map_eq_some_iff.mp h
          exact ⟨rfl, rfl, rfl⟩

theorem slashLoop_eq (outside : Int → UInt8) {chars : Str} {more i : Nat}
    (h : i + more ≤ chars.length) :
    slashLoop (charAt outside chars) more i =
      (firstSlash chars i (i + more)).map Nat.cast := by
  induction more generalizing i with
  | zero =>
      rw [Nat.add_zero, firstSlash, List.drop_eq_nil_of_le (by simp)]
      rfl
  | succ more ih =>
      have hi : i < (chars.take (i + (more + 1))).length := by
        rw [List.length_take]
        omega
      have hread : charAt outside chars i = chars[i] := by
        unfold charAt
        rw [if_pos (Int.natCast_nonneg i), Int.toNat_natCast, List.getD_eq_getElem]
      have hrest := ih (i := i + 1) (by omega)
      push_cast at hrest
      rw [slashLoop, hread, hrest, firstSlash, firstSlash, List.drop_eq_getElem_cons hi,
        List.getElem_take, List.idxOf?_cons, show i + 1 + more = i + (more + 1) by omega]
      by_cases hslash : chars[i] = slash
      · simp [hslash]
      · simp only [hslash, beq_iff_eq, if_false, Option.map_map]
        congr 1
        funext j
        simp only [Function.comp_apply]
        push_cast
        omega

theorem chooseByRune_edit {ctx : CompletionCtx} {rune : UInt8} {rest : Str}
    (htyped : ctx.typed = rune :: rest) :
    (chooseByRune ctx).map (fun ch => (ch.matchType, ch.textEditStart)) =
      (runeMatch rune).map fun matchType =>
        (matchType,
          if matchType = .anySymbol then ctx.prefixStartByte else ctx.prefixStartByte + 1) := by
  unfold chooseByRune runeMatch
  rw [htyped]
  dsimp only
  split_ifs <;> rfl

/-- The start of the edit for a match type and the start that the rune chose. -/
def slashStart (ctx : CompletionCtx) (matchType : MatchType) (start : Nat) : Nat :=
  if matchType ≠ .anySymbol ∧ (ctx.typed[1]? = some 0x26 ∨ ctx.typed[1]? = some slash) then
    ctx.prefixStartByte + 2
  else
    ((firstSlash ctx.lineContent.chars (ctx.prefixStartByte + 1) ctx.prefixEndByte).map
      (· + 1)).getD start

theorem chooseBySlash_start (ctx : CompletionCtx) (ch : Choice) :
    (chooseBySlash ctx ch).textEditStart = slashStart ctx ch.matchType ch.textEditStart := by
  unfold chooseBySlash slashStart
  split
  · rfl
  · split
    · next hfirst => rw [hfirst]; rfl
    · next hfirst => rw [hfirst]; rfl

theorem choose_start {ctx : CompletionCtx} {rune : UInt8} {rest : Str}
    (htyped : ctx.typed = rune :: rest) :
    (choose ctx).map Choice.textEditStart = (runeMatch rune).map fun matchType =>
      slashStart ctx matchType
        (if matchType = .anySymbol then ctx.prefixStartByte else ctx.prefixStartByte + 1) := by
  have hpair := congrArg (Option.map fun p => slashStart ctx p.1 p.2) (chooseByRune_edit htyped)
  rw [Option.map_map, Option.map_map] at hpair
  rw [choose, Option.map_map]
  refine Eq.trans ?_ hpair
  congr 1
  funext ch
  exact chooseBySlash_start ctx ch

/-- As long as they fit, the ints start the edit where the offsets do. -/
theorem choose_textEditStart {ctx : CompletionCtx} (outside : Int → UInt8)
    (hle : ctx.prefixStartByte + ctx.typed.length = ctx.prefixEndByte)
    (hlen : ctx.prefixEndByte ≤ ctx.lineContent.chars.length)
    (hsmall : ctx.prefixEndByte < 2 ^ 31) :
    ((choose ctx).map Choice.textEditStart).map Nat.cast =
      textEditStart outside (intFields ctx) := by
  have hstart : (intFields ctx).prefixStartByte = ctx.prefixStartByte :=
    (wrapInt_eq_self_iff (Int.natCast_nonneg ctx.prefixStartByte)).mpr (by omega)
  have hstop : (intFields ctx).prefixEndByte = ctx.prefixEndByte :=
    (wrapInt_eq_self_iff (Int.natCast_nonneg ctx.prefixEndByte)).mpr (by omega)
  cases htyped : ctx.typed with
  | nil => simp [choose, chooseByRune, textEditStart, intFields, htyped]
  | cons rune rest =>
      rw [htyped, List.length_cons] at hle
      have hnext := (wrapInt_eq_self_iff
        (Int.natCast_nonneg (ctx.prefixStartByte + 1))).mpr (by omega)
      have hbound : ctx.prefixStartByte + 1 + rest.length ≤ ctx.lineContent.chars.length := by
        omega
      have hloop := slashLoop_eq outside hbound
      have hmore : ((ctx.prefixEndByte : Int) - (ctx.prefixStartByte + 1)).toNat =
          rest.length := by omega
      push_cast at hnext hloop
      rw [show ctx.prefixStartByte + 1 + rest.length = ctx.prefixEndByte by omega] at hloop
      have hmark : ctx.typed[1]? = rest.head? := by
        rw [htyped, List.getElem?_cons_succ, List.head?_eq_getElem?]
      unfold textEditStart
      rw [show (intFields ctx).typed = rune :: rest from htyped, hstart, hstop,
        choose_start htyped, Option.map_map]
      have hline : (intFields ctx).lineContent = ctx.lineContent := rfl
      simp only [hnext, hmore, hline, hloop]
      refine Option.map_congr fun matchType _ => ?_
      rw [Function.comp_apply, slashStart, hmark]
      split
      · next hm =>
          have hrest : rest ≠ [] := by
            rintro rfl
            simp at hm
          have hpos := List.length_pos_iff.mpr hrest
          have hwrap := (wrapInt_eq_self_iff
            (Int.natCast_nonneg (ctx.prefixStartByte + 2))).mpr (by omega)
          push_cast at hwrap ⊢
          exact hwrap.symm
      · cases hfirst : firstSlash ctx.lineContent.chars (ctx.prefixStartByte + 1)
            ctx.prefixEndByte with
        | none =>
            simp only [Option.map_none, Option.getD_none]
            split <;> simp
        | some i =>
            have hi : i < ctx.prefixEndByte := by
              have hsome := slashLoop_some (hloop.trans (by rw [hfirst, Option.map_some]))
              omega
            have hwrap := (wrapInt_eq_self_iff (Int.natCast_nonneg (i + 1))).mpr (by omega)
            push_cast at hwrap
            simp [hwrap]

/-- On a stored line the handler's search without ints finds the start of the edit. -/
theorem completion_textEditStart {E : Env} {c : AnalyzerCtx} {docs : Docs} {path : Str}
    {position : Position} {ctx : CompletionCtx} {l : StoredLine} (outside : Int → UInt8)
    (h : completionCtx E c docs path position = some ctx) (hline : ctx.lineContent = l.line)
    (hsmall : l.byteAt E.utf8proc position.character < 2 ^ 31) :
    ((choose ctx).map Choice.textEditStart).map Nat.cast =
      textEditStart outside (editCtx E.utf8proc l.line position.character) := by
  obtain ⟨hstop, hstart, hfields⟩ := completionCtx_fields h
  have htyped := (completionCtx_typed h).typed
  rw [hline] at hstop hstart hfields htyped
  have hstop : ctx.prefixEndByte = l.cursorByte E.utf8proc position.character := hstop
  rw [hstop] at hstart htyped
  have hrun := (l.prefixStart_longest E.utf8proc position.character).isRun
  have hlen : l.line.chars.length = l.bytes.length + l.behind.length := List.length_append
  rw [← hfields]
  apply choose_textEditStart
  · rw [htyped, List.length_drop, List.length_take, hlen, hstop,
      show ctx.prefixStartByte = l.prefixStart E.utf8proc position.character from hstart]
    have := hrun.start_le
    have := hrun.stop_le
    omega
  · rw [hline, hlen, hstop]
    have := hrun.stop_le
    omega
  · rw [hstop]
    rw [← l.cast_cursorByte] at hsmall
    exact_mod_cast hsmall

end BuxnLs.Analysis
