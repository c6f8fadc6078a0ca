/-
  The `sortText` of completion items. A key is `<is_remote>:<address>:<name>`: one byte, four
  hexadecimal digits and a name, with colons between them. The first two fields have a fixed
  width, so byte by byte the keys compare as the triples that they spell
  (`compare_sortKey`), whatever the names contain. Names contain no NUL: `%.*s` would stop at it.
-/
import BuxnLs.Lib.Lexicographic
import BuxnLs.Model.Completion

namespace BuxnLs.Analysis

open BuxnLs.Lib BuxnLs.Model

/-! ## The address field -/

def hexDigit (d : Nat) : UInt8 := d.digitChar.toNat.toUInt8

theorem ascii_ofList (cs : List Char) :
    ascii (String.ofList cs) = cs.map fun c => c.toNat.toUInt8 := by
  rw [ascii, String.toList_ofList]

theorem hex_of_lt {width n : Nat} (hn : n < 16) :
    hex width n = List.replicate (width - 1) 0x30 ++ [hexDigit n] := by
  simp only [hex, ascii_ofList, Nat.toDigits_of_lt_base hn, List.map_cons, List.map_nil,
    List.length_singleton, hexDigit]

/-- A further digit is the last one. -/
theorem hex_succ {width : Nat} (hw : 0 < width) (n : Nat) :
    hex (width + 1) n = hex width (n / 16) ++ [hexDigit (n % 16)] := by
  by_cases hn : n < 16
  · have hzero : hexDigit 0 = 0x30 := by decide
    rw [hex_of_lt hn, Nat.div_eq_of_lt hn, hex_of_lt (by decide), Nat.mod_eq_of_lt hn, hzero,
      ← List.replicate_succ', Nat.sub_add_cancel hw, Nat.add_sub_cancel]
  · have hdigits := Nat.toDigits_of_base_le (b := 16) (by decide) (Nat.le_of_not_lt hn)
    simp only [hex, ascii_ofList, hdigits, List.map_append, List.map_cons, List.map_nil,
      List.length_append, List.length_singleton, hexDigit, List.append_assoc]
    rw [Nat.add_sub_add_right]

theorem hex_eq_numeral {width n : Nat} (hw : 0 < width) (hn : n < 16 ^ width) :
    hex width n = numeral 16 hexDigit width n := by
  induction width generalizing n with
  | zero => exact absurd hw (Nat.lt_irrefl 0)
  | succ width ih =>
      rcases Nat.eq_zero_or_pos width with rfl | hpos
      · have hn : n < 16 := by simpa using hn
        rw [hex_of_lt hn, numeral, numeral, Nat.mod_eq_of_lt hn]
        rfl
      · have hdiv : n / 16 < 16 ^ width := Nat.div_lt_of_lt_mul (by rwa [pow_succ'] at hn)
        rw [hex_succ hpos, ih hpos hdiv, numeral]

theorem compare_hexDigit :
    ∀ i < 16, ∀ j < 16, compare (hexDigit i) (hexDigit j) = compare i j := by
  decide

theorem address_lt (address : UInt16) : address.toNat < 16 ^ 4 := address.toNat_lt

theorem length_address (address : UInt16) : (hex 4 address.toNat).length = 4 := by
  rw [hex_eq_numeral (by decide) (address_lt address), length_numeral]

/-- Addresses compare as numbers. -/
theorem compare_address (a b : UInt16) :
    compare (hex 4 a.toNat) (hex 4 b.toNat) = compare a.toNat b.toNat := by
  rw [hex_eq_numeral (by decide) (address_lt a), hex_eq_numeral (by decide) (address_lt b)]
  exact compare_numeral (by decide) (fun i j hi hj => compare_hexDigit i hi j hj)
    (address_lt a) (address_lt b)

/-! ## The keys -/

/-- `is_remote` as a field. -/
def remoteField (item : CompletionItem) : Str := if item.isLocal then ascii "0" else ascii "1"

theorem compare_remoteField (item item' : CompletionItem) :
    compare (remoteField item) (remoteField item') = compare (!item.isLocal) (!item'.isLocal) := by
  unfold remoteField
  cases item.isLocal <;> cases item'.isLocal <;> decide

theorem length_remoteField (item : CompletionItem) : (remoteField item).length = 1 := by
  unfold remoteField
  split <;> decide

theorem compare_sortKey (item item' : CompletionItem) (name name' : Str) :
    compare (sortKey item name) (sortKey item' name') =
      (compare (!item.isLocal) (!item'.isLocal)).then
        ((compare item.sym.address.toNat item'.sym.address.toNat).then (compare name name')) := by
  have hremote := (length_remoteField item).trans (length_remoteField item').symm
  have haddress := (length_address item.sym.address).trans
    (length_address item'.sym.address).symm
  have hkey : ∀ (i : CompletionItem) (n : Str), sortKey i n =
      remoteField i ++ (ascii ":" ++ (hex 4 i.sym.address.toNat ++ (ascii ":" ++ n))) :=
    fun i n => by simp only [sortKey, remoteField, List.append_assoc]
  rw [hkey, hkey, compare_append hremote, compare_remoteField, compare_self_append,
    compare_append haddress, compare_address, compare_self_append]

/-- The name that an entry is sorted by: a module (kind 9) by its scope with the slash. -/
def sortName (item : CompletionItem) (entry : CompletionEntry) : Str :=
  if entry.kind = 9 then labelScope item.sym.name ++ [slash] else item.sym.name

theorem itemKind_ne_module (semantics : Semantics) : itemKind semantics ≠ 9 := by
  cases semantics <;> decide

/-- Both kinds of entries carry the key of their name. -/
theorem sortText_eq {format : FormatType} {range : Range} {item : CompletionItem}
    {entry : CompletionEntry} (h : entry ∈ formatItem format range item) :
    entry.sortText = sortKey item (sortName item entry) := by
  have hsymbol : ∀ label, entry = serializeSymbol item label range →
      entry.sortText = sortKey item (sortName item entry) := by
    rintro label rfl
    have hkind : (serializeSymbol item label range).kind ≠ 9 := itemKind_ne_module _
    rw [sortName, if_neg hkind]
    rfl
  have hmodule : entry = serializeModule item range →
      entry.sortText = sortKey item (sortName item entry) := by
    rintro rfl
    rfl
  unfold formatItem at h
  cases format with
  | fullName =>
      dsimp only at h
      split at h
      · exact hsymbol _ (List.mem_singleton.mp h)
      · rcases List.mem_append.mp h with h | h
        · split at h
          · exact hsymbol _ (List.mem_singleton.mp h)
          · exact absurd h List.not_mem_nil
        · split at h
          · exact hmodule (List.mem_singleton.mp h)
          · exact absurd h List.not_mem_nil
  | localName =>
      dsimp only at h
      split at h
      · exact hsymbol _ (List.mem_singleton.mp h)
      · exact absurd h List.not_mem_nil

/-- Byte by byte the keys of any two entries compare as their triples do. -/
theorem sortText_compare {format format' : FormatType} {range range' : Range}
    {item item' : CompletionItem} {entry entry' : CompletionEntry}
    (h : entry ∈ formatItem format range item) (h' : entry' ∈ formatItem format' range' item') :
    compare entry.sortText entry'.sortText =
      (compare (!item.isLocal) (!item'.isLocal)).then
        ((compare item.sym.address.toNat item'.sym.address.toNat).then
          (compare (sortName item entry) (sortName item' entry'))) := by
  rw [sortText_eq h, sortText_eq h']
  exact compare_sortKey item item' _ _

/-- A remote label at an address. -/
def labelItem (name : String) (address : UInt16) (size : Int)
    (h : cStr (ascii name) = ascii name := by decide) : CompletionItem where
  sym :=
    { name := ascii name, documentation := [], signature := [], source := 0, type := .label,
      semantics := .asSubroutine, byteOffset := 0, range := default, address := address,
      origin := .emitted 0, name_cStr := h }
  size := size
  isLocal := false

/-- `add/` at address 0x9 stands before `a` at 0x10, although `a` is the smaller name. -/
theorem sortText_compare_module :
    compare (serializeModule (labelItem "add/word" 0x9 2) default).sortText
      (serializeSymbol (labelItem "a" 0x10 1) (ascii "a") default).sortText = .lt := by
  have hmodule : serializeModule (labelItem "add/word" 0x9 2) default ∈
      formatItem .fullName default (labelItem "add/word" 0x9 2) := by
    decide
  have hsymbol : serializeSymbol (labelItem "a" 0x10 1) (ascii "a") default ∈
      formatItem .fullName default (labelItem "a" 0x10 1) := by
    decide
  exact (sortText_compare hmodule hsymbol).trans (by decide)

end BuxnLs.Analysis
