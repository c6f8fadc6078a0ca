/-
  Text as utf8proc sees it. `units` cuts a byte string into what one iteration of the offset
  loops takes: a code point, or one byte of an invalid sequence. `utf8` encodes characters, and
  `DecodesUtf8` says that a decoder reads them back; `charUtf8proc` is such a decoder.
-/
import BuxnLs.Model.Common

namespace BuxnLs.Model

/-- What one iteration of the offset loops takes from the rest of a line. -/
inductive TextUnit where
  | codePoint (bytes cp : Nat)
  | invalidByte
deriving DecidableEq, Repr

namespace TextUnit

def bytes : TextUnit → Nat
  | codePoint n _ => n
  | invalidByte => 1

/-- Code units: one up to U+FFFF, two above, none for a skipped byte. -/
def utf16Length : TextUnit → Nat
  | codePoint _ cp => if cp ≤ 0xffff then 1 else 2
  | invalidByte => 0

end TextUnit

/-- The unit at the front of a rest. -/
def takeUnit (u : Utf8proc) (rest : Str) : TextUnit :=
  match u.iterate rest with
  | none => .invalidByte
  | some (n, cp) => .codePoint n cp

def unitsFrom (u : Utf8proc) : Nat → Str → List TextUnit
  | 0, _ => []
  | _ + 1, [] => []
  | fuel + 1, ch :: rest =>
    let unit := takeUnit u (ch :: rest)
    unit :: unitsFrom u fuel ((ch :: rest).drop unit.bytes)

/-- The units of a byte string. A unit has a byte or more, so the length is enough fuel. -/
def units (u : Utf8proc) (text : Str) : List TextUnit := unitsFrom u text.length text

theorem takeUnit_bounds (u : Utf8proc) {rest : Str} (h : rest ≠ []) :
    0 < (takeUnit u rest).bytes ∧ (takeUnit u rest).bytes ≤ rest.length := by
  have hlen := List.length_pos_iff.mpr h
  unfold takeUnit
  split
  · exact ⟨Nat.one_pos, hlen⟩
  · next n cp hiter =>
      have hb := u.iterate_bounds rest n cp h hiter
      exact ⟨hb.1, hb.2.2⟩

theorem unitsFrom_bytes_pos (u : Utf8proc) (fuel : Nat) (rest : Str) :
    ∀ t ∈ unitsFrom u fuel rest, 0 < t.bytes := by
  induction fuel generalizing rest with
  | zero => intro t ht; cases ht
  | succ fuel ih =>
      intro t ht
      cases rest with
      | nil => cases ht
      | cons ch rest =>
          rw [unitsFrom, List.mem_cons] at ht
          obtain rfl | ht := ht
          · exact (takeUnit_bounds u (List.cons_ne_nil ch rest)).1
          · exact ih _ t ht

theorem units_bytes_pos (u : Utf8proc) (text : Str) : ∀ t ∈ units u text, 0 < t.bytes :=
  unitsFrom_bytes_pos u _ text

/-! ## Valid text -/

/-- The UTF-8 encoding of characters. -/
def utf8 (cs : List Char) : Str := cs.flatMap String.utf8EncodeChar

/-- `utf8proc_iterate` reads back a well-formed sequence at the front of its input. -/
def Utf8proc.DecodesUtf8 (u : Utf8proc) : Prop :=
  ∀ (c : Char) (rest : Str),
    u.iterate (String.utf8EncodeChar c ++ rest) = some (c.utf8Size, c.toNat)

/-- The unit of a character. -/
def charUnit (c : Char) : TextUnit := .codePoint c.utf8Size c.toNat

@[simp] theorem utf8_nil : utf8 [] = [] := rfl

@[simp] theorem utf8_cons (c : Char) (cs : List Char) :
    utf8 (c :: cs) = String.utf8EncodeChar c ++ utf8 cs := rfl

@[simp] theorem utf8_append (cs cs' : List Char) : utf8 (cs ++ cs') = utf8 cs ++ utf8 cs' :=
  List.flatMap_append

theorem unitsFrom_utf8 {u : Utf8proc} (hu : u.DecodesUtf8) (cs : List Char) (fuel : Nat)
    (h : (utf8 cs).length ≤ fuel) : unitsFrom u fuel (utf8 cs) = cs.map charUnit := by
  induction cs generalizing fuel with
  | nil => cases fuel <;> rfl
  | cons c cs ih =>
      have hsize := String.length_utf8EncodeChar c
      have hpos := c.utf8Size_pos
      rw [utf8_cons, List.length_append] at h
      obtain ⟨fuel, rfl⟩ : ∃ n, fuel = n + 1 := ⟨fuel - 1, by omega⟩
      have hunit : takeUnit u (String.utf8EncodeChar c ++ utf8 cs) = charUnit c := by
        rw [takeUnit, hu c (utf8 cs)]
        rfl
      have hdrop : (String.utf8EncodeChar c ++ utf8 cs).drop (charUnit c).bytes = utf8 cs :=
        List.drop_left' hsize
      cases henc : String.utf8EncodeChar c ++ utf8 cs with
      | nil => simp [String.utf8EncodeChar_ne_nil] at henc
      | cons ch rest =>
          rw [utf8_cons, henc, unitsFrom, ← henc, hunit, hdrop, List.map_cons,
            ih fuel (by omega)]

/-- The units of valid text are its characters. -/
theorem units_utf8 {u : Utf8proc} (hu : u.DecodesUtf8) (cs : List Char) :
    units u (utf8 cs) = cs.map charUnit :=
  unitsFrom_utf8 hu cs _ (Nat.le_refl _)

theorem charUnit_utf16Length_pos (c : Char) : 0 < (charUnit c).utf16Length := by
  show 0 < if c.toNat ≤ 0xffff then 1 else 2
  split <;> omega

/-- An ASCII byte occurs only as the encoding of its own character. -/
theorem toNat_of_mem_utf8EncodeChar {b : UInt8} {c : Char} (h : b ∈ String.utf8EncodeChar c)
    (hb : b.toNat < 0x80) : c.toNat = b.toNat := by
  have hval : c.toNat = c.val.toNat := rfl
  unfold String.utf8EncodeChar at h
  dsimp only at h
  split at h
  · rw [List.mem_singleton] at h
    rw [h, UInt8.toNat_ofNat']
    omega
  · -- a lead byte is at least `0xc0`, a continuation byte at least `0x80`
    split at h
    · simp only [List.mem_cons, List.not_mem_nil, or_false] at h
      rcases h with rfl | rfl <;> rw [UInt8.toNat_ofNat'] at hb <;> omega
    · split at h
      · simp only [List.mem_cons, List.not_mem_nil, or_false] at h
        rcases h with rfl | rfl | rfl <;> rw [UInt8.toNat_ofNat'] at hb <;> omega
      · simp only [List.mem_cons, List.not_mem_nil, or_false] at h
        rcases h with rfl | rfl | rfl | rfl <;> rw [UInt8.toNat_ofNat'] at hb <;> omega

theorem lf_notMem_utf8 {cs : List Char} (h : '\n' ∉ cs) : lf ∉ utf8 cs := by
  intro hmem
  obtain ⟨c, hc, hb⟩ := List.mem_flatMap.mp hmem
  have hval : c.toNat = '\n'.toNat := toNat_of_mem_utf8EncodeChar hb (by decide)
  exact h (Char.toNat_inj.mp hval ▸ hc)

theorem cr_notMem_utf8 {cs : List Char} (h : '\r' ∉ cs) : cr ∉ utf8 cs := by
  intro hmem
  obtain ⟨c, hc, hb⟩ := List.mem_flatMap.mp hmem
  have hval : c.toNat = '\r'.toNat := toNat_of_mem_utf8EncodeChar hb (by decide)
  exact h (Char.toNat_inj.mp hval ▸ hc)

/-- The decoder of the language's own strings. -/
def charUtf8proc : Utf8proc where
  iterate := fun s => (s.toByteArray.utf8DecodeChar? 0).map fun c => (c.utf8Size, c.toNat)
  iterate_bounds := by
    intro s n cp hs h
    obtain ⟨c, hc, hpair⟩ := Option.map_eq_some_iff.mp h
    cases hpair
    have hle := ByteArray.le_size_of_utf8DecodeChar?_eq_some hc
    rw [List.size_toByteArray] at hle
    exact ⟨c.utf8Size_pos, c.utf8Size_le_four, by omega⟩

theorem charUtf8proc_decodes : charUtf8proc.DecodesUtf8 := by
  intro c rest
  have hdecode :
      (String.utf8EncodeChar c ++ rest).toByteArray.utf8DecodeChar? 0 = some c := by
    rw [List.toByteArray_append]
    exact ByteArray.utf8DecodeChar?_utf8EncodeChar_append
  exact congrArg (Option.map fun c => (c.utf8Size, c.toNat)) hdecode

end BuxnLs.Model
