/-
  An environment whose parts behave as the real ones do on ASCII text: every byte is one code
  point, a `file://` URI has the rest as its path, `http://host` has none, and the sort is
  insertion sort. `utf8Env` decodes UTF-8 instead.
-/
import BuxnLs.Model.Analyzer
import BuxnLs.Model.Utf8
import Mathlib.Data.List.Sort
import Mathlib.Order.Defs.LinearOrder

namespace BuxnLs.Model

/-- `utf8proc_iterate` on ASCII. -/
def asciiUtf8proc : Utf8proc where
  iterate := fun s => s.head?.map fun ch => (1, ch.toNat)
  iterate_bounds := by
    intro s n cp hs h
    cases s with
    | nil => exact absurd rfl hs
    | cons ch rest =>
        cases h
        simp

def keyLe (key : Diagnostic → Str) (a b : Diagnostic) : Prop := key a ≤ key b

instance (key : Diagnostic → Str) : DecidableRel (keyLe key) := fun a b =>
  inferInstanceAs (Decidable (key a ≤ key b))

instance (key : Diagnostic → Str) : Std.Total (keyLe key) :=
  ⟨fun a b => List.le_total (key a) (key b)⟩

instance (key : Diagnostic → Str) : IsTrans Diagnostic (keyLe key) :=
  ⟨fun _ _ _ => List.le_trans⟩

def asciiEnv : Env where
  rootDir := ascii "/w/"
  utf8proc := asciiUtf8proc
  yuarelPath := fun uri =>
    if ascii "file://" <+: uri then some (some (uri.drop 7))
    else if uri = ascii "http://host" then some none
    else none
  formatStack := fun stack => stack
  qsort := fun key ds => ds.insertionSort (keyLe key)
  qsort_perm := fun key ds => List.perm_insertionSort (keyLe key) ds
  qsort_sorted := fun key ds => List.pairwise_insertionSort (keyLe key) ds

def utf8Env : Env := { asciiEnv with utf8proc := charUtf8proc }

theorem cStr_foo : cStr (ascii "foo") = ascii "foo" := by decide

end BuxnLs.Model
