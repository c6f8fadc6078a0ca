/-
  The language of `bio_lsp_recv_msg_header`. `recvLine` takes a line of at most 1022 bytes
  without a CR, and never stores outside of its buffer. The header loop sees the line as a C
  string and the value of a field as `strtoull` does: a NUL ends a line early, and a value may be
  empty, spaced or signed (`taken_iff_lenient`). The loop accepts the grammar of plain decimal
  values exactly on the streams without a header that only this makes one, or no longer one
  (`exactly_grammar_iff`).
-/
import BuxnLs.Lib.Lines
import BuxnLs.Model.Lsp

namespace BuxnLs.Analysis

open BuxnLs.Lib BuxnLs.Model

/-! ## A line -/

/-- The buffer has `size` bytes, and no store went outside of it. -/
structure BufOK (size : Nat) (buf : LineBuf) : Prop where
  size : buf.bytes.length = size
  inside : buf.overrun = false

theorem BufOK.store {size i : Nat} {buf : LineBuf} (h : BufOK size buf) (hi : i < size)
    (ch : UInt8) : BufOK size (buf.store i ch) := by
  unfold LineBuf.store
  rw [if_pos (by rw [h.size]; exact hi)]
  exact ⟨by rw [List.length_set, h.size], h.inside⟩

theorem BufOK.store_bytes {size i : Nat} {buf : LineBuf} (h : BufOK size buf) (hi : i < size)
    (ch : UInt8) : (buf.store i ch).bytes = buf.bytes.set i ch := by
  unfold LineBuf.store
  rw [if_pos (by rw [h.size]; exact hi)]

/-- A store behind the first `i` bytes. -/
theorem BufOK.store_take {size i : Nat} {buf : LineBuf} (h : BufOK size buf) (hi : i < size)
    (ch : UInt8) : (buf.store i ch).bytes.take (i + 1) = buf.bytes.take i ++ [ch] := by
  have hlen : i < (buf.bytes.set i ch).length := by
    rw [List.length_set, h.size]
    exact hi
  rw [h.store_bytes hi, List.take_succ_eq_append_getElem hlen, List.getElem_set_self,
    List.take_set_of_le (Nat.le_refl i)]

theorem recvLine_ok {size : Nat} (input : Str) (current : Nat) {buf : LineBuf}
    (h : BufOK size buf) : BufOK size (recvLine size input current buf).2 := by
  induction input generalizing current buf with
  | nil => exact h
  | cons ch input ih =>
      rw [recvLine.eq_def]
      dsimp only
      split
      · exact h
      · rename_i hcur
        have hstored := h.store (Nat.not_le.mp hcur) ch
        split
        · split
          · exact hstored
          · rename_i hnext
            have hnext := Nat.not_le.mp hnext
            split
            · exact hstored
            · rename_i ch' input
              split
              · exact hstored.store hnext ch'
              · exact (hstored.store hnext ch').store (by omega) 0
        · exact ih (current + 1) hstored

/-- A line that fits is read up to its CR LF, and the buffer then holds it. -/
theorem recvLine_line {size : Nat} {l : Str} (hl : cr ∉ l) (rest : Str) {current : Nat}
    {buf : LineBuf} (h : BufOK size buf) (hfit : current + l.length + 1 < size) :
    (recvLine size (l ++ [cr, lf] ++ rest) current buf).1 = some rest ∧
      (recvLine size (l ++ [cr, lf] ++ rest) current buf).2.bytes.take (current + l.length + 1) =
        buf.bytes.take current ++ l ++ [0] := by
  induction l generalizing current buf with
  | nil =>
      have hcur : current + 1 < size := hfit
      have hstep : recvLine size ([] ++ [cr, lf] ++ rest) current buf =
          (some rest, ((buf.store current cr).store (current + 1) lf).store current 0) := by
        show recvLine size (cr :: lf :: rest) current buf = _
        rw [recvLine.eq_def]
        dsimp only
        rw [if_neg (by omega), if_pos rfl, if_neg (by omega), if_neg (fun h => h rfl)]
        rfl
      have hok := (h.store (show current < size by omega) cr).store hcur lf
      have htake := hok.store_take (show current < size by omega) 0
      rw [hstep]
      refine ⟨rfl, ?_⟩
      rw [List.append_nil, List.length_nil, Nat.add_zero, htake,
        (h.store (show current < size by omega) cr).store_bytes hcur,
        h.store_bytes (show current < size by omega), List.take_set_of_le (by omega),
        List.take_set_of_le (Nat.le_refl _)]
  | cons ch l ih =>
      rw [List.mem_cons, not_or] at hl
      rw [List.length_cons] at hfit
      have hcur : current < size := by omega
      have hstep : recvLine size (ch :: l ++ [cr, lf] ++ rest) current buf =
          recvLine size (l ++ [cr, lf] ++ rest) (current + 1) (buf.store current ch) := by
        show recvLine size (ch :: (l ++ [cr, lf] ++ rest)) current buf = _
        rw [recvLine.eq_def]
        dsimp only
        rw [if_neg (by omega), if_neg (Ne.symm hl.1)]
      obtain ⟨hsome, htake⟩ := ih hl.2 (h.store hcur ch)
        (show current + 1 + l.length + 1 < size by omega)
      rw [hstep]
      refine ⟨hsome, ?_⟩
      have hlen : current + (ch :: l).length + 1 = current + 1 + l.length + 1 := by
        rw [List.length_cons]
        omega
      rw [hlen, htake, h.store_take hcur, List.append_assoc (List.take _ _), List.singleton_append]

/-- What is read is a line that fits. -/
theorem recvLine_some {size : Nat} {input rest : Str} {current : Nat} {buf : LineBuf}
    (h : (recvLine size input current buf).1 = some rest) :
    ∃ l, cr ∉ l ∧ current + l.length + 1 < size ∧ input = l ++ [cr, lf] ++ rest := by
  induction input generalizing current buf with
  | nil => exact absurd h (by simp [recvLine])
  | cons ch input ih =>
      rw [recvLine.eq_def] at h
      dsimp only at h
      split at h
      · exact absurd h (by simp)
      · split at h
        · rename_i hcr
          split at h
          · exact absurd h (by simp)
          · rename_i hnext
            split at h
            · exact absurd h (by simp)
            · rename_i ch' input
              split at h
              · exact absurd h (by simp)
              · rename_i hlf
                refine ⟨[], List.not_mem_nil, Nat.not_le.mp hnext, ?_⟩
                rw [hcr, Decidable.not_not.mp hlf, Option.some.inj h]
                rfl
        · rename_i hcr
          obtain ⟨l, hl, hfit, heq⟩ := ih h
          refine ⟨ch :: l, ?_, ?_, ?_⟩
          · rw [List.mem_cons, not_or]
            exact ⟨Ne.symm hcr, hl⟩
          · rw [List.length_cons]
            omega
          · rw [heq]
            rfl

/-! ## The loop over the lines -/

theorem cStr_append_zero (l tail : Str) : cStr (l ++ 0 :: tail) = cStr l := by
  unfold cStr
  induction l with
  | nil => rfl
  | cons ch l ih =>
      by_cases hch : ch = 0
      · simp [hch]
      · simp only [List.cons_append, List.takeWhile_cons, ne_eq, hch, not_false_eq_true,
          decide_true, if_true, List.cons.injEq, true_and]
        exact ih

theorem cStr_of_take {bytes l : Str} (h : bytes.take (l.length + 1) = l ++ [0]) :
    cStr bytes = cStr l := by
  have hbytes : bytes = l ++ 0 :: bytes.drop (l.length + 1) := by
    rw [← List.singleton_append, ← List.append_assoc, ← h, List.take_append_drop]
  rw [hbytes, cStr_append_zero]

theorem cStr_isPrefix (l : Str) : cStr l <+: l := List.takeWhile_prefix _

/-- What a line that does not look empty does to `content_length`; `none` is an error. -/
def lineEffect (contentLength : Nat) (line : Str) : Option Nat :=
  if lengthField <+: line then
    let val := strtoull (line.drop lengthField.length)
    if val.erange then none else if val.rest ≠ [] then none else some val.value
  else some contentLength

/-- A line that fits: no CR, and room for its CR LF in 1024 bytes. -/
def Fits (l : Str) : Prop := cr ∉ l ∧ l.length ≤ 1022

/-- One iteration on a line that fits. -/
theorem headerLoop_line {l : Str} (hl : Fits l) (rest : Str) (fuel contentLength : Nat)
    {buf : LineBuf} (h : BufOK 1024 buf) :
    ∃ buf', BufOK 1024 buf' ∧ headerLoop (fuel + 1) contentLength buf (l ++ [cr, lf] ++ rest) =
      if cStr l = [] then (if contentLength = 0 then none else some (contentLength, rest), buf')
      else (lineEffect contentLength (cStr l)).elim (none, buf')
        fun value => headerLoop fuel value buf' rest := by
  obtain ⟨hsome, htake⟩ := recvLine_line hl.1 rest h
    (show 0 + l.length + 1 < 1024 by have := hl.2; omega)
  rw [List.take_zero, List.nil_append, Nat.zero_add] at htake
  have hok := recvLine_ok (l ++ [cr, lf] ++ rest) 0 h
  generalize hread : recvLine 1024 (l ++ [cr, lf] ++ rest) 0 buf = read at hsome htake hok
  obtain ⟨input, buf'⟩ := read
  obtain rfl : input = some rest := hsome
  refine ⟨buf', hok, ?_⟩
  rw [headerLoop, h.size, hread]
  dsimp only
  rw [cStr_of_take htake]
  unfold lineEffect
  by_cases hempty : cStr l = []
  · rw [if_pos hempty, if_pos hempty]
  · rw [if_neg hempty, if_neg hempty]
    by_cases hfield : lengthField <+: cStr l
    · rw [if_pos hfield, if_pos hfield]
      dsimp only
      by_cases hrange : (strtoull ((cStr l).drop lengthField.length)).erange = true
      · rw [if_pos hrange, if_pos hrange]
        rfl
      · rw [if_neg hrange, if_neg hrange]
        by_cases hend : (strtoull ((cStr l).drop lengthField.length)).rest ≠ []
        · rw [if_pos hend, if_pos hend]
          rfl
        · rw [if_neg hend, if_neg hend]
          rfl
    · rw [if_neg hfield, if_neg hfield]
      rfl

theorem headerLoop_none {fuel contentLength : Nat} {buf : LineBuf} {input : Str}
    (h : (recvLine buf.bytes.length input 0 buf).1 = none) :
    (headerLoop (fuel + 1) contentLength buf input).1 = none := by
  generalize hread : recvLine buf.bytes.length input 0 buf = read at h
  obtain ⟨next, buf'⟩ := read
  obtain rfl : next = none := h
  rw [headerLoop, hread]

/-- No iteration stores outside of the buffer. -/
theorem headerLoop_ok {fuel contentLength : Nat} {buf : LineBuf} {input : Str}
    (h : BufOK 1024 buf) : BufOK 1024 (headerLoop fuel contentLength buf input).2 := by
  induction fuel generalizing contentLength buf input with
  | zero => exact h
  | succ fuel ih =>
      have hok := recvLine_ok input 0 h
      rw [headerLoop, h.size]
      generalize recvLine 1024 input 0 buf = read at hok
      obtain ⟨next, buf'⟩ := read
      cases next with
      | none => exact hok
      | some input =>
          dsimp only
          split
          · exact hok
          · split
            · split
              · exact hok
              · split
                · exact hok
                · exact ih hok
            · exact ih hok

/-- A line looks empty when its first byte is a NUL, too. -/
def LooksEmpty (l : Str) : Prop := cStr l = []

/-- The effect of the lines, as C strings, one after the other. -/
def linesEffect (contentLength : Nat) (ls : List Str) : Option Nat :=
  ls.foldlM (fun contentLength l => lineEffect contentLength (cStr l)) contentLength

/-- What the loop accepts: lines that fit, up to the first one that looks empty. -/
structure Accepted (contentLength : Nat) (input : Str) (n : Nat) (rest : Str) (ls : List Str)
    (z : Str) : Prop where
  block : BlockOf cr [lf] LooksEmpty input ls z rest
  short : ∀ l ∈ ls, l.length ≤ 1022
  short_last : z.length ≤ 1022
  effect : linesEffect contentLength ls = some n
  pos : n ≠ 0

theorem Accepted.nil {contentLength : Nat} {z : Str} (hz : Fits z) (hempty : LooksEmpty z)
    (rest : Str) (hpos : contentLength ≠ 0) :
    Accepted contentLength (z ++ [cr, lf] ++ rest) contentLength rest [] z where
  block := ⟨rfl, fun _ hl => absurd hl List.not_mem_nil, hz.1, hempty⟩
  short := fun _ hl => absurd hl List.not_mem_nil
  short_last := hz.2
  effect := rfl
  pos := hpos

theorem Accepted.cons {contentLength value n : Nat} {l input rest z : Str} {ls : List Str}
    (hl : Fits l) (hempty : ¬ LooksEmpty l)
    (heffect : lineEffect contentLength (cStr l) = some value)
    (h : Accepted value input n rest ls z) :
    Accepted contentLength (l ++ [cr, lf] ++ input) n rest (l :: ls) z where
  block := by
    refine ⟨?_, ?_, h.block.last⟩
    · rw [joinLines_cons, List.append_assoc _ (joinLines _ ls) _, ← h.block.text_eq]
    · intro l' hl'
      rcases List.mem_cons.mp hl' with rfl | hl'
      · exact ⟨hl.1, hempty⟩
      · exact h.block.lines l' hl'
  short := by
    intro l' hl'
    rcases List.mem_cons.mp hl' with rfl | hl'
    · exact hl.2
    · exact h.short l' hl'
  short_last := h.short_last
  effect := by
    unfold linesEffect
    rw [List.foldlM_cons, heffect]
    exact h.effect
  pos := h.pos

theorem headerLoop_iff {fuel contentLength : Nat} {buf : LineBuf} {input : Str} {n : Nat}
    {rest : Str} (h : BufOK 1024 buf) (hfuel : input.length < fuel) :
    (headerLoop fuel contentLength buf input).1 = some (n, rest) ↔
      ∃ ls z, Accepted contentLength input n rest ls z := by
  induction fuel generalizing contentLength buf input with
  | zero => exact absurd hfuel (Nat.not_lt_zero _)
  | succ fuel ih =>
      constructor
      · intro hsome
        cases hread : (recvLine buf.bytes.length input 0 buf).1 with
        | none => exact absurd (hsome.symm.trans (headerLoop_none hread)) (by simp)
        | some next =>
            obtain ⟨l, hcr, hfit, rfl⟩ := recvLine_some hread
            rw [h.size] at hfit
            have hl : Fits l := ⟨hcr, by omega⟩
            obtain ⟨buf', hok, hstep⟩ := headerLoop_line hl next fuel contentLength h
            rw [hstep] at hsome
            by_cases hempty : cStr l = []
            · rw [if_pos hempty] at hsome
              by_cases hzero : contentLength = 0
              · rw [if_pos hzero] at hsome
                exact absurd hsome (by simp)
              · rw [if_neg hzero] at hsome
                obtain ⟨rfl, rfl⟩ := Prod.mk.inj (Option.some.inj hsome)
                exact ⟨[], l, .nil hl hempty next hzero⟩
            · rw [if_neg hempty] at hsome
              cases heffect : lineEffect contentLength (cStr l) with
              | none =>
                  rw [heffect] at hsome
                  exact absurd hsome (by simp)
              | some value =>
                  rw [heffect] at hsome
                  have hlen : next.length < fuel := by
                    rw [List.length_append, List.length_append, List.length_cons] at hfuel
                    omega
                  obtain ⟨ls, z, hacc⟩ := (ih hok hlen).mp hsome
                  exact ⟨l :: ls, z, .cons hl hempty heffect hacc⟩
      · rintro ⟨ls, z, hacc⟩
        cases ls with
        | nil =>
            have hz : Fits z := ⟨hacc.block.last.1, hacc.short_last⟩
            obtain ⟨buf', -, hstep⟩ := headerLoop_line hz rest fuel contentLength h
            have htext : input = z ++ [cr, lf] ++ rest := hacc.block.text_eq
            obtain rfl : contentLength = n := Option.some.inj hacc.effect
            rw [htext, hstep, if_pos (show cStr z = [] from hacc.block.last.2), if_neg hacc.pos]
        | cons l ls =>
            obtain ⟨hno, hempty⟩ := hacc.block.lines l List.mem_cons_self
            have hl : Fits l := ⟨hno, hacc.short l List.mem_cons_self⟩
            obtain ⟨value, heffect, hrest⟩ :
                ∃ value, lineEffect contentLength (cStr l) = some value ∧
                  linesEffect value ls = some n := by
              have heffect := hacc.effect
              unfold linesEffect at heffect
              rw [List.foldlM_cons] at heffect
              exact Option.bind_eq_some_iff.mp heffect
            have htext : input = l ++ [cr, lf] ++
                (joinLines [cr, lf] ls ++ (z ++ [cr, lf] ++ rest)) := by
              rw [hacc.block.text_eq, joinLines_cons, List.append_assoc _ (joinLines _ ls) _]
            obtain ⟨buf', hok, hstep⟩ := headerLoop_line hl
              (joinLines [cr, lf] ls ++ (z ++ [cr, lf] ++ rest)) fuel contentLength h
            have hlen := congrArg List.length htext
            rw [List.length_append, List.length_append, List.length_cons] at hlen
            rw [htext, hstep, if_neg (show ¬ cStr l = [] from hempty), heffect]
            refine (ih hok (by omega)).mpr ⟨ls, z, ⟨rfl, ?_, hacc.block.last⟩, ?_,
              hacc.short_last, hrest, hacc.pos⟩
            · exact fun l' hl' => hacc.block.lines l' (List.mem_cons_of_mem _ hl')
            · exact fun l' hl' => hacc.short l' (List.mem_cons_of_mem _ hl')

/-! ## The fields of a block -/

/-- The value of a `Content-Length` line. -/
def valueOf (l : Str) : Option Str :=
  if lengthField <+: l then some (l.drop lengthField.length) else none

theorem valueOf_append (v : Str) : valueOf (lengthField ++ v) = some v := by
  unfold valueOf
  rw [if_pos (List.prefix_append _ _), List.drop_left]

theorem valueOf_eq_some {l v : Str} : valueOf l = some v ↔ l = lengthField ++ v := by
  constructor
  · intro h
    unfold valueOf at h
    split at h
    · rename_i hp
      obtain ⟨w, rfl⟩ := hp
      rw [List.drop_left] at h
      rw [Option.some.inj h]
    · exact absurd h (by simp)
  · rintro rfl
    exact valueOf_append v

/-- The values that the loop sees. -/
def seenValues (ls : List Str) : List Str := ls.filterMap fun l => valueOf (cStr l)

/-- `strtoull` takes the whole of the value. -/
def Taken (v : Str) : Prop := (strtoull v).erange = false ∧ (strtoull v).rest = []

theorem lineEffect_iff {contentLength n : Nat} {l : Str} :
    lineEffect contentLength l = some n ↔
      (∀ v, valueOf l = some v → Taken v) ∧
        n = ((valueOf l).map fun v => (strtoull v).value).getD contentLength := by
  unfold lineEffect valueOf
  by_cases hp : lengthField <+: l
  · rw [if_pos hp, if_pos hp]
    dsimp only
    by_cases hrange : (strtoull (l.drop lengthField.length)).erange = true
    · rw [if_pos hrange]
      refine ⟨fun h => absurd h (by simp), fun h => ?_⟩
      have hin := (h.1 _ rfl).1
      rw [hrange] at hin
      exact absurd hin (by simp)
    · rw [if_neg hrange]
      by_cases hend : (strtoull (l.drop lengthField.length)).rest = []
      · rw [if_neg (not_not_intro hend)]
        constructor
        · intro h
          refine ⟨fun v hv => ?_, (Option.some.inj h).symm⟩
          obtain rfl := Option.some.inj hv
          exact ⟨by simpa using hrange, hend⟩
        · exact fun h => congrArg some h.2.symm
      · rw [if_pos hend]
        exact ⟨fun h => absurd h (by simp), fun h => absurd (h.1 _ rfl).2 hend⟩
  · rw [if_neg hp, if_neg hp]
    constructor
    · exact fun h => ⟨fun v hv => absurd hv (by simp), (Option.some.inj h).symm⟩
    · exact fun h => congrArg some h.2.symm

theorem linesEffect_cons {contentLength n : Nat} {l : Str} {ls : List Str} :
    linesEffect contentLength (l :: ls) = some n ↔
      ∃ value, lineEffect contentLength (cStr l) = some value ∧ linesEffect value ls = some n := by
  unfold linesEffect
  rw [List.foldlM_cons]
  exact Option.bind_eq_some_iff

/-- The lines are taken when all values are, and the last value counts. -/
theorem linesEffect_iff {contentLength n : Nat} {ls : List Str} :
    linesEffect contentLength ls = some n ↔
      (∀ v ∈ seenValues ls, Taken v) ∧
        n = ((seenValues ls).getLast?.map fun v => (strtoull v).value).getD contentLength := by
  induction ls generalizing contentLength with
  | nil =>
      refine ⟨fun h => ⟨fun v hv => absurd hv List.not_mem_nil, (Option.some.inj h).symm⟩, ?_⟩
      exact fun h => congrArg some h.2.symm
  | cons l ls ih =>
      have hboth : linesEffect contentLength (l :: ls) = some n ↔
          (∀ v, valueOf (cStr l) = some v → Taken v) ∧ linesEffect
            (((valueOf (cStr l)).map fun v => (strtoull v).value).getD contentLength) ls =
              some n := by
        rw [linesEffect_cons]
        constructor
        · rintro ⟨value, heffect, hrest⟩
          obtain ⟨htaken, rfl⟩ := lineEffect_iff.mp heffect
          exact ⟨htaken, hrest⟩
        · rintro ⟨htaken, hrest⟩
          exact ⟨_, lineEffect_iff.mpr ⟨htaken, rfl⟩, hrest⟩
      rw [hboth, ih]
      unfold seenValues
      cases hv : valueOf (cStr l) with
      | none => simp [hv]
      | some v =>
          have hcons : (l :: ls).filterMap (fun l => valueOf (cStr l)) =
              v :: ls.filterMap (fun l => valueOf (cStr l)) :=
            List.filterMap_cons_some hv
          rw [hcons, List.getLast?_cons]
          have hlast : ∀ last : Option Str,
              ((some (last.getD v)).map fun v => (strtoull v).value).getD contentLength =
                (last.map fun v => (strtoull v).value).getD (strtoull v).value := by
            intro last
            cases last <;> rfl
          rw [hlast]
          simp [and_assoc]

/-! ## The grammar -/

/-- A non-empty string of decimal digits that denotes a 64-bit number. -/
structure Plain (v : Str) : Prop where
  ne_nil : v ≠ []
  digits : ∀ ch ∈ v, isDigit ch = true
  value_lt : digitsValue v < 2 ^ 64

/-- `input` starts with lines that fit, closed by the first empty one, the `Content-Length`
    values are plain and the last of them denotes `n`. -/
def InGrammar (input : Str) (n : Nat) (rest : Str) : Prop :=
  ∃ ls, input = joinLines [cr, lf] ls ++ [cr, lf] ++ rest ∧ (∀ l ∈ ls, Fits l ∧ l ≠ []) ∧
    (∀ v ∈ ls.filterMap valueOf, Plain v) ∧
    ∃ v, (ls.filterMap valueOf).getLast? = some v ∧ digitsValue v = n

theorem Plain.notMem_zero {v : Str} (h : Plain v) : 0 ∉ v :=
  fun h0 => absurd (h.digits 0 h0) (by decide)

/-- Nothing, or white space, at most one sign and a plain number. -/
inductive Lenient : Str → Prop where
  | nothing : Lenient []
  | number (blanks sign ds : Str) : (∀ ch ∈ blanks, isSpace ch = true) →
      sign = [] ∨ sign = [0x2b] ∨ sign = [0x2d] → Plain ds → Lenient (blanks ++ (sign ++ ds))

theorem not_isSpace_of_isDigit {ch : UInt8} (h : isDigit ch = true) : ¬ isSpace ch = true := by
  obtain ⟨hge, -⟩ := isDigit_iff.mp h
  intro hs
  rcases (Bool.or_eq_true _ _).mp hs with hs | hs
  · rw [of_decide_eq_true hs] at hge
    exact absurd hge (by decide)
  · have hle := of_decide_eq_true ((Bool.and_eq_true _ _).mp hs).2
    exact absurd (Nat.le_trans hge (UInt8.le_iff_toNat_le.mp hle)) (by decide)

theorem Plain.exists_cons {ds : Str} (h : Plain ds) :
    ∃ ch tail, ds = ch :: tail ∧ isDigit ch = true := by
  obtain ⟨ch, tail, rfl⟩ := List.exists_cons_of_ne_nil h.ne_nil
  exact ⟨ch, tail, rfl, h.digits ch List.mem_cons_self⟩

/-- `strtoull` on a plain number behind white space and a sign. -/
theorem strtoull_number {blanks sign ds : Str} (hblanks : ∀ ch ∈ blanks, isSpace ch = true)
    (hsign : sign = [] ∨ sign = [0x2b] ∨ sign = [0x2d]) (h : Plain ds) :
    strtoull (blanks ++ (sign ++ ds)) =
      ⟨if sign = [0x2d] then (2 ^ 64 - digitsValue ds) % 2 ^ 64 else digitsValue ds, false,
        []⟩ := by
  obtain ⟨ch, tail, hds, hch⟩ := h.exists_cons
  have hskip : (blanks ++ (sign ++ ds)).dropWhile isSpace = sign ++ ds := by
    rw [List.dropWhile_append_of_pos hblanks]
    rcases hsign with rfl | rfl | rfl
    · rw [List.nil_append, hds, List.dropWhile_cons_of_neg (not_isSpace_of_isDigit hch)]
    · exact List.dropWhile_cons_of_neg (by decide)
    · exact List.dropWhile_cons_of_neg (by decide)
  have htake : ds.takeWhile isDigit = ds := List.takeWhile_eq_self_iff.mpr h.digits
  have hdrop : ds.dropWhile isDigit = [] := List.dropWhile_eq_nil_iff.mpr h.digits
  have hread : ∀ negative : Bool, ((sign ++ ds).head? = some 0x2d ↔ negative = true) →
      (if (sign ++ ds).head? = some 0x2d ∨ (sign ++ ds).head? = some 0x2b then
        (sign ++ ds).drop 1 else sign ++ ds) = ds →
      strtoull (blanks ++ (sign ++ ds)) =
        ⟨if negative then (2 ^ 64 - digitsValue ds) % 2 ^ 64 else digitsValue ds, false, []⟩ := by
    intro negative hnegative hunsigned
    unfold strtoull
    dsimp only
    rw [hskip, hunsigned, htake, hdrop, if_neg h.ne_nil, if_neg (Nat.not_le.mpr h.value_lt)]
    simp only [hnegative]
  rcases hsign with rfl | rfl | rfl
  · have hne : ∀ other : UInt8, other.toNat < 0x30 → ch ≠ other := by
      rintro other hlt rfl
      exact absurd (isDigit_iff.mp hch).1 (Nat.not_le.mpr hlt)
    have hminus : ([] ++ ds).head? ≠ some 0x2d := by
      rw [List.nil_append, hds]
      exact fun he => hne 0x2d (by decide) (Option.some.inj he)
    have hplus : ([] ++ ds).head? ≠ some 0x2b := by
      rw [List.nil_append, hds]
      exact fun he => hne 0x2b (by decide) (Option.some.inj he)
    exact hread false (iff_of_false hminus (by decide)) (if_neg (not_or.mpr ⟨hminus, hplus⟩))
  · exact hread false (iff_of_false (fun he => by cases he) (by decide))
      (if_pos (Or.inr rfl))
  · exact hread true (iff_of_true rfl rfl) (if_pos (Or.inl rfl))

/-- `strtoull` reads a plain value as it is. -/
theorem Plain.strtoull {v : Str} (h : Plain v) : strtoull v = ⟨digitsValue v, false, []⟩ :=
  strtoull_number (fun _ hch => absurd hch List.not_mem_nil) (Or.inl rfl) h

/-- A value that `strtoull` takes in full is of this syntax. -/
theorem Taken.lenient {v : Str} (h : Taken v) : Lenient v := by
  obtain ⟨hrange, hrest⟩ := h
  unfold strtoull at hrange hrest
  dsimp only at hrange hrest
  generalize hnumber : v.dropWhile isSpace = number at hrange hrest
  have hv : v.takeWhile isSpace ++ number = v := by
    rw [← hnumber]
    exact List.takeWhile_append_dropWhile
  have hblanks : ∀ ch ∈ v.takeWhile isSpace, isSpace ch = true := fun ch => List.mem_takeWhile_imp
  generalize hunsigned : (if (number.head? = some 0x2d) ∨ number.head? = some 0x2b then
    number.drop 1 else number) = unsigned at hrange hrest
  have hsplit : ∃ sign : Str, (sign = [] ∨ sign = [0x2b] ∨ sign = [0x2d]) ∧
      number = sign ++ unsigned := by
    rw [← hunsigned]
    split
    · rename_i hsign
      cases number with
      | nil => simp at hsign
      | cons ch tail =>
          refine ⟨[ch], Or.inr ?_, rfl⟩
          rcases hsign with hch | hch
          · exact Or.inr (congrArg (fun c => [c]) (Option.some.inj hch))
          · exact Or.inl (congrArg (fun c => [c]) (Option.some.inj hch))
    · exact ⟨[], Or.inl rfl, rfl⟩
  obtain ⟨sign, hsign, hnumber⟩ := hsplit
  by_cases hnone : unsigned.takeWhile isDigit = []
  · rw [if_pos hnone] at hrest
    obtain rfl : v = [] := hrest
    exact .nothing
  · rw [if_neg hnone] at hrange hrest
    by_cases hlarge : digitsValue (unsigned.takeWhile isDigit) ≥ 2 ^ 64
    · rw [if_pos hlarge] at hrange
      cases hrange
    · rw [if_neg hlarge] at hrest
      have hend : unsigned.dropWhile isDigit = [] := hrest
      have hds : unsigned.takeWhile isDigit = unsigned :=
        List.takeWhile_eq_self_iff.mpr (List.dropWhile_eq_nil_iff.mp hend)
      rw [hds] at hnone hlarge
      rw [← hv, hnumber]
      exact .number _ _ _ hblanks hsign
        ⟨hnone, List.takeWhile_eq_self_iff.mp hds, Nat.not_le.mp hlarge⟩

theorem Lenient.taken {v : Str} (h : Lenient v) : Taken v := by
  cases h with
  | nothing => exact ⟨rfl, rfl⟩
  | number blanks sign ds hblanks hsign hds =>
      unfold Taken
      rw [strtoull_number hblanks hsign hds]
      exact ⟨rfl, rfl⟩

theorem taken_iff_lenient (v : Str) : Taken v ↔ Lenient v := ⟨Taken.lenient, Lenient.taken⟩

/-- A digit other than 0 stands in the value. -/
def NonZero (v : Str) : Prop := ∃ ch ∈ v, isDigit ch = true ∧ ch ≠ 0x30

theorem Plain.nonZero_iff {v : Str} (h : Plain v) : NonZero v ↔ digitsValue v ≠ 0 := by
  rw [Ne, digitsValue_eq_zero_iff h.digits]
  unfold NonZero
  push Not
  exact exists_congr fun ch => and_congr_right fun hch => and_iff_right (h.digits ch hch)

/-- Neither white space nor a sign makes a number 0, nor other than 0. -/
theorem Lenient.nonZero_iff {v : Str} (h : Lenient v) : NonZero v ↔ (strtoull v).value ≠ 0 := by
  cases h with
  | nothing => exact iff_of_false (fun ⟨_, hch, _⟩ => absurd hch List.not_mem_nil) (fun h => h rfl)
  | number blanks sign ds hblanks hsign hds =>
      have hsame : NonZero (blanks ++ (sign ++ ds)) ↔ NonZero ds := by
        constructor
        · rintro ⟨ch, hch, hdigit, hzero⟩
          rcases List.mem_append.mp hch with hch | hch
          · exact absurd (hblanks ch hch) (not_isSpace_of_isDigit hdigit)
          · rcases List.mem_append.mp hch with hch | hch
            · rcases hsign with rfl | rfl | rfl
              · exact absurd hch List.not_mem_nil
              · rw [List.mem_singleton.mp hch] at hdigit
                exact absurd hdigit (by decide)
              · rw [List.mem_singleton.mp hch] at hdigit
                exact absurd hdigit (by decide)
            · exact ⟨ch, hch, hdigit, hzero⟩
        · rintro ⟨ch, hch, hrest⟩
          exact ⟨ch, List.mem_append_right _ (List.mem_append_right _ hch), hrest⟩
      have hlt := hds.value_lt
      rw [hsame, hds.nonZero_iff, strtoull_number hblanks hsign hds]
      dsimp only
      split <;> omega

/-- A lenient value that starts with a digit is plain. -/
theorem Lenient.plain {v : Str} (h : Lenient v) (hfirst : v.head?.any isDigit = true) :
    Plain v := by
  cases h with
  | nothing => cases hfirst
  | number blanks sign ds hblanks hsign hds =>
      cases blanks with
      | nil =>
          rcases hsign with rfl | rfl | rfl
          · exact hds
          · cases hfirst
          · cases hfirst
      | cons ch blanks =>
          exact absurd (hblanks ch List.mem_cons_self) (not_isSpace_of_isDigit hfirst)

theorem Plain.lenient {v : Str} (h : Plain v) : Lenient v :=
  .number [] [] v (fun _ hch => absurd hch List.not_mem_nil) (Or.inl rfl) h

theorem Plain.taken {v : Str} (h : Plain v) : Taken v := (taken_iff_lenient v).mpr h.lenient

/-- The loop sees a line with a plain value, and one that is no such field, as it is. -/
theorem valueOf_cStr {l : Str} (h : ∀ v, valueOf l = some v → Plain v) :
    valueOf (cStr l) = valueOf l := by
  cases hv : valueOf l with
  | none =>
      unfold valueOf at hv ⊢
      split at hv
      · exact absurd hv (by simp)
      · rename_i hp
        exact if_neg fun hp' => hp (hp'.trans (cStr_isPrefix l))
  | some v =>
      have hl := valueOf_eq_some.mp hv
      have hzero : (0 : UInt8) ∉ l := by
        rw [hl, List.mem_append, not_or]
        exact ⟨by decide, (h v hv).notMem_zero⟩
      rw [cStr_of_notMem hzero, hv]

theorem seenValues_plain {ls : List Str} (h : ∀ v ∈ ls.filterMap valueOf, Plain v) :
    seenValues ls = ls.filterMap valueOf := by
  refine List.filterMap_congr fun l hl => valueOf_cStr fun v hv => ?_
  exact h v (List.mem_filterMap.mpr ⟨l, hl, hv⟩)

/-- Lines with plain values end with the last of them. -/
theorem linesEffect_plain {ls : List Str} {n : Nat} (hpos : n ≠ 0)
    (h : ∀ v ∈ ls.filterMap valueOf, Plain v) :
    linesEffect 0 ls = some n ↔
      ∃ v, (ls.filterMap valueOf).getLast? = some v ∧ digitsValue v = n := by
  rw [linesEffect_iff, seenValues_plain h]
  cases hlast : (ls.filterMap valueOf).getLast? with
  | none =>
      refine ⟨fun h => absurd h.2 hpos, ?_⟩
      rintro ⟨v, hv, -⟩
      exact absurd hv (by simp)
  | some v =>
      have hv : Plain v := h v (List.mem_of_getLast? hlast)
      rw [Option.map_some, hv.strtoull, Option.getD_some]
      constructor
      · rintro ⟨-, rfl⟩
        exact ⟨v, rfl, rfl⟩
      · rintro ⟨w, hw, hn⟩
        refine ⟨fun w hw => (h w hw).taken, ?_⟩
        rw [← hn, Option.some.inj hw]

/-! ## Exactly the grammar -/

/-- The parser returns a length exactly for the streams of the grammar, reads exactly the block,
    and stores nowhere but in its buffer. -/
structure ExactlyGrammar (lineBuf : Vector UInt8 1024) (input : Str) : Prop where
  accepts : ∀ n rest, (recvMsgHeader lineBuf input).1 = some (n, rest) ↔
    0 < n ∧ InGrammar input n rest
  inside : (recvMsgHeader lineBuf input).2.overrun = false

/-- Each value is lenient, and the last one is a number other than 0. -/
def AllLenient (values : List Str) : Prop :=
  (∀ v ∈ values, Lenient v) ∧ ∃ v, values.getLast? = some v ∧ NonZero v

/-- Lines that fit, up to the first one that is empty or starts with a NUL, hold lenient values,
    cut at a NUL; and that line starts with a NUL, or one of the fields holds a NUL or does not
    start with a digit. -/
def LaxHeader (input : Str) : Prop :=
  ∃ ls z rest, BlockOf cr [lf] LooksEmpty input ls z rest ∧ (∀ l ∈ ls, Fits l) ∧ Fits z ∧
    AllLenient (seenValues ls) ∧
    (z ≠ [] ∨ ∃ l ∈ ls, ∃ v, valueOf l = some v ∧ (0 ∈ v ∨ ¬ v.head?.any isDigit = true))

/-- Lines that fit, up to the first empty one, hold plain values, the last one other than 0; and
    one of the lines starts with a NUL. -/
def NulLedHeader (input : Str) : Prop :=
  ∃ ls rest, BlockOf cr [lf] (· = []) input ls [] rest ∧ (∀ l ∈ ls, Fits l) ∧
    (∀ v ∈ ls.filterMap valueOf, Plain v) ∧
    (∃ v, (ls.filterMap valueOf).getLast? = some v ∧ NonZero v) ∧ ∃ l ∈ ls, l.head? = some 0

theorem bufOK_init (lineBuf : Vector UInt8 1024) : BufOK 1024 ⟨lineBuf.toList, false⟩ :=
  ⟨lineBuf.length_toList, rfl⟩

/-- The language of the parser: the amended grammar. -/
theorem recvMsgHeader_iff (lineBuf : Vector UInt8 1024) {input : Str} {n : Nat} {rest : Str} :
    (recvMsgHeader lineBuf input).1 = some (n, rest) ↔
      ∃ ls z, Accepted 0 input n rest ls z :=
  headerLoop_iff (bufOK_init lineBuf) (Nat.lt_succ_self _)

theorem recvMsgHeader_inside (lineBuf : Vector UInt8 1024) (input : Str) :
    (recvMsgHeader lineBuf input).2.overrun = false :=
  (headerLoop_ok (bufOK_init lineBuf)).inside

theorem Accepted.fits {input rest z : Str} {n : Nat} {ls : List Str}
    (h : Accepted 0 input n rest ls z) : (∀ l ∈ ls, Fits l) ∧ Fits z :=
  ⟨fun l hl => ⟨(h.block.lines l hl).1, h.short l hl⟩, h.block.last.1, h.short_last⟩

theorem Accepted.allLenient {input rest z : Str} {n : Nat} {ls : List Str}
    (h : Accepted 0 input n rest ls z) : AllLenient (seenValues ls) := by
  obtain ⟨htaken, hn⟩ := linesEffect_iff.mp h.effect
  refine ⟨fun v hv => (taken_iff_lenient v).mp (htaken v hv), ?_⟩
  cases hlast : (seenValues ls).getLast? with
  | none =>
      rw [hlast] at hn
      exact absurd hn h.pos
  | some v =>
      rw [hlast] at hn
      have hv := (taken_iff_lenient v).mp (htaken v (List.mem_of_getLast? hlast))
      exact ⟨v, rfl, hv.nonZero_iff.mpr fun h0 => h.pos (hn.trans h0)⟩

theorem accepted_of_allLenient {input rest z : Str} {ls : List Str}
    (hblock : BlockOf cr [lf] LooksEmpty input ls z rest) (hls : ∀ l ∈ ls, Fits l) (hz : Fits z)
    (h : AllLenient (seenValues ls)) : ∃ n, Accepted 0 input n rest ls z := by
  obtain ⟨hlenient, v, hv, hnonzero⟩ := h
  have hpos := (hlenient v (List.mem_of_getLast? hv)).nonZero_iff.mp hnonzero
  refine ⟨(strtoull v).value, hblock, fun l hl => (hls l hl).2, hz.2, ?_, hpos⟩
  exact linesEffect_iff.mpr
    ⟨fun w hw => (taken_iff_lenient w).mpr (hlenient w hw), by rw [hv]; rfl⟩

/-- Fields without a NUL that start with a digit are plain if they are lenient. -/
theorem plain_of_lenient {ls : List Str} (h : ∀ v ∈ seenValues ls, Lenient v)
    (hfields : ∀ l ∈ ls, ∀ v, valueOf l = some v → 0 ∉ v ∧ v.head?.any isDigit = true) :
    ∀ v ∈ ls.filterMap valueOf, Plain v := by
  intro v hv
  obtain ⟨l, hl, hvalue⟩ := List.mem_filterMap.mp hv
  obtain ⟨hzero, hfirst⟩ := hfields l hl v hvalue
  have heq := valueOf_eq_some.mp hvalue
  have hline : (0 : UInt8) ∉ l := by
    rw [heq, List.mem_append, not_or]
    exact ⟨by decide, hzero⟩
  have hseen : v ∈ seenValues ls :=
    List.mem_filterMap.mpr ⟨l, hl, by rw [cStr_of_notMem hline, hvalue]⟩
  exact (h v hseen).plain hfirst

/-- The empty line closes a block, for the grammar. -/
theorem InGrammar.block {input rest : Str} {n : Nat} (h : InGrammar input n rest) :
    ∃ ls, BlockOf cr [lf] (· = []) input ls [] rest ∧ (∀ l ∈ ls, Fits l) ∧
      (∀ v ∈ ls.filterMap valueOf, Plain v) ∧
      ∃ v, (ls.filterMap valueOf).getLast? = some v ∧ digitsValue v = n := by
  obtain ⟨ls, heq, hls, hplain, hlast⟩ := h
  refine ⟨ls, ⟨?_, fun l hl => ⟨(hls l hl).1.1, (hls l hl).2⟩, List.not_mem_nil, rfl⟩,
    fun l hl => (hls l hl).1, hplain, hlast⟩
  rw [heq, List.append_assoc]
  rfl

theorem inGrammar_of_plain {input rest : Str} {n : Nat} {ls : List Str}
    (h : Accepted 0 input n rest ls []) (hplain : ∀ v ∈ ls.filterMap valueOf, Plain v) :
    InGrammar input n rest := by
  refine ⟨ls, ?_, fun l hl => ⟨h.fits.1 l hl, ?_⟩, hplain,
    (linesEffect_plain h.pos hplain).mp h.effect⟩
  · rw [h.block.text_eq, List.nil_append, List.append_assoc (joinLines _ ls)]
  · rintro rfl
    exact (h.block.lines [] hl).2 rfl

/-- Two readings of a block that leave the same rest. -/
theorem block_eq {p : Str → Prop} {input rest z : Str} {ls ls' : List Str}
    (h : BlockOf cr [lf] p input ls z rest) (h' : BlockOf cr [lf] (· = []) input ls' [] rest) :
    ls = ls' ∧ z = [] := by
  have htext := h.text_eq.symm.trans h'.text_eq
  rw [← List.append_assoc, ← List.append_assoc, ← List.append_assoc, ← List.append_assoc] at htext
  have hjoin : joinLines [cr, lf] (ls ++ [z]) = joinLines [cr, lf] (ls' ++ [[]]) := by
    have hcancel := List.append_cancel_right htext
    simpa only [joinLines_append, joinLines_cons, joinLines_nil, List.append_nil,
      List.nil_append, List.append_assoc] using hcancel
  have hlines := joinLines_inj ?_ ?_ hjoin
  · obtain ⟨hls, hz⟩ := List.append_inj' hlines rfl
    exact ⟨hls, List.head_eq_of_cons_eq hz⟩
  · intro l hl
    rcases List.mem_append.mp hl with hl | hl
    · exact (h.lines l hl).1
    · exact List.mem_singleton.mp hl ▸ h.last.1
  · intro l hl
    rcases List.mem_append.mp hl with hl | hl
    · exact (h'.lines l hl).1
    · exact List.mem_singleton.mp hl ▸ h'.last.1

theorem looksEmpty_iff (l : Str) : LooksEmpty l ↔ l = [] ∨ l.head? = some 0 := by
  unfold LooksEmpty cStr
  cases l with
  | nil => simp
  | cons ch l => simp [List.takeWhile_cons]

/-- A stream of the grammar is accepted, or one of its lines starts with a NUL. -/
theorem InGrammar.accepted {input rest : Str} {n : Nat} (h : InGrammar input n rest)
    (hpos : 0 < n) : (∃ ls, Accepted 0 input n rest ls []) ∨ NulLedHeader input := by
  obtain ⟨ls, hblock, hfits, hplain, v, hv, hn⟩ := h.block
  by_cases hnul : ∃ l ∈ ls, l.head? = some 0
  · refine Or.inr ⟨ls, rest, hblock, hfits, hplain, ⟨v, hv, ?_⟩, hnul⟩
    rw [(hplain v (List.mem_of_getLast? hv)).nonZero_iff, hn]
    exact Nat.ne_of_gt hpos
  · refine Or.inl ⟨ls, ⟨hblock.text_eq, fun l hl => ⟨(hfits l hl).1, ?_⟩,
      List.not_mem_nil, rfl⟩, fun l hl => (hfits l hl).2, Nat.zero_le _,
      (linesEffect_plain (Nat.ne_of_gt hpos) hplain).mpr ⟨v, hv, hn⟩, Nat.ne_of_gt hpos⟩
    rw [looksEmpty_iff, not_or]
    exact ⟨(hblock.lines l hl).2, fun hhead => hnul ⟨l, hl, hhead⟩⟩

/-- Such a header is in the grammar. -/
theorem inGrammar_of_block {input rest v : Str} {ls : List Str}
    (hblock : BlockOf cr [lf] (· = []) input ls [] rest) (hfits : ∀ l ∈ ls, Fits l)
    (hplain : ∀ v ∈ ls.filterMap valueOf, Plain v)
    (hv : (ls.filterMap valueOf).getLast? = some v) : InGrammar input (digitsValue v) rest := by
  refine ⟨ls, ?_, fun l hl => ⟨hfits l hl, (hblock.lines l hl).2⟩, hplain, v, hv, rfl⟩
  rw [hblock.text_eq, List.nil_append, List.append_assoc (joinLines _ ls)]

/-- The parser accepts exactly the grammar on a stream exactly when the stream starts with neither
    of these headers. -/
theorem exactly_grammar_iff (lineBuf : Vector UInt8 1024) (input : Str) :
    ExactlyGrammar lineBuf input ↔ ¬ LaxHeader input ∧ ¬ NulLedHeader input := by
  constructor
  · intro h
    constructor
    · rintro ⟨ls, z, rest, hblock, hls, hz, hlenient, hbad⟩
      obtain ⟨n, hacc⟩ := accepted_of_allLenient hblock hls hz hlenient
      have hsome := (recvMsgHeader_iff lineBuf).mpr ⟨ls, z, hacc⟩
      obtain ⟨ls', hblock', -, hplain, -⟩ := ((h.accepts n rest).mp hsome).2.block
      obtain ⟨rfl, hempty⟩ := block_eq hblock hblock'
      rcases hbad with hne | ⟨l, hl, v, hv, hbad⟩
      · exact hne hempty
      · have hv := hplain v (List.mem_filterMap.mpr ⟨l, hl, hv⟩)
        obtain ⟨ch, tail, rfl, hdigit⟩ := hv.exists_cons
        exact hbad.elim hv.notMem_zero fun hfirst => hfirst hdigit
    · rintro ⟨ls, rest, hblock, hfits, hplain, ⟨v, hv, hnonzero⟩, l, hl, hnul⟩
      have hpos := ((hplain v (List.mem_of_getLast? hv)).nonZero_iff).mp hnonzero
      have hsome := (h.accepts _ rest).mpr
        ⟨Nat.pos_of_ne_zero hpos, inGrammar_of_block hblock hfits hplain hv⟩
      obtain ⟨ls', z, hacc⟩ := (recvMsgHeader_iff lineBuf).mp hsome
      obtain ⟨rfl, -⟩ := block_eq hacc.block hblock
      exact (hacc.block.lines l hl).2 ((looksEmpty_iff l).mpr (Or.inr hnul))
  · rintro ⟨hlax, hnul⟩
    refine ⟨fun n rest => ⟨fun hsome => ?_, ?_⟩, recvMsgHeader_inside lineBuf input⟩
    · obtain ⟨ls, z, hacc⟩ := (recvMsgHeader_iff lineBuf).mp hsome
      obtain ⟨hls, hz⟩ := hacc.fits
      have hlenient := hacc.allLenient
      have hgood : z = [] ∧
          ∀ l ∈ ls, ∀ v, valueOf l = some v → 0 ∉ v ∧ v.head?.any isDigit = true := by
        by_contra hbad
        refine hlax ⟨ls, z, rest, hacc.block, hls, hz, hlenient, ?_⟩
        by_cases hempty : z = []
        · right
          by_contra hno
          refine hbad ⟨hempty, fun l hl v hv => ?_⟩
          by_contra hor
          refine hno ⟨l, hl, v, hv, ?_⟩
          by_cases hzero : 0 ∈ v
          · exact Or.inl hzero
          · exact Or.inr fun hfirst => hor ⟨hzero, hfirst⟩
        · exact Or.inl hempty
      obtain ⟨rfl, hfields⟩ := hgood
      exact ⟨Nat.pos_of_ne_zero hacc.pos,
        inGrammar_of_plain hacc (plain_of_lenient hlenient.1 hfields)⟩
    · rintro ⟨hpos, hgrammar⟩
      rcases hgrammar.accepted hpos with ⟨ls, hacc⟩ | hled
      · exact (recvMsgHeader_iff lineBuf).mpr ⟨ls, [], hacc⟩
      · exact absurd hled hnul

/-- The header `Content-Length: -1` announces `2^64 - 1` bytes, but its value is no string of
    digits. -/
theorem negative_length_accepted :
    ¬ ExactlyGrammar (.replicate 1024 0)
      (ascii "Content-Length: -1" ++ [cr, lf] ++ [cr, lf]) := by
  intro h
  have hblock : BlockOf cr [lf] LooksEmpty (ascii "Content-Length: -1" ++ [cr, lf] ++ [cr, lf])
      [ascii "Content-Length: -1"] [] [] :=
    ⟨by decide, by unfold LooksEmpty; decide, by unfold LooksEmpty; decide⟩
  have hacc : Accepted 0 (ascii "Content-Length: -1" ++ [cr, lf] ++ [cr, lf]) (2 ^ 64 - 1) []
      [ascii "Content-Length: -1"] [] :=
    ⟨hblock, by decide, by decide, by decide, by decide⟩
  have hsome := (recvMsgHeader_iff (.replicate 1024 0)).mpr ⟨_, _, hacc⟩
  obtain ⟨ls, hblock', -, hplain, -⟩ := ((h.accepts _ _).mp hsome).2.block
  obtain ⟨rfl, -⟩ := block_eq hblock hblock'
  have hvalue : Plain (ascii "-1") := hplain _ (by decide)
  exact absurd (hvalue.digits 0x2d (by decide)) (by decide)

end BuxnLs.Analysis
