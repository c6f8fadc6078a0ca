/-
  What the assembler reads. The content of a file is captured at its first open of a run and
  nothing changes it before the next run (`step_contents`), so every stream over the file runs
  through that content (`StreamOK`). The values come out of a signed `char`: a byte from 0x80 on
  is negative, and 0xff is taken for the end of the file. So a stream is read as it should be
  exactly as long as no such byte is met (`stream_exact_iff`).
-/
import BuxnLs.Analysis.LineCache
import BuxnLs.Analysis.Listing
import BuxnLs.Model.AsciiEnv
import BuxnLs.Model.Streams

namespace BuxnLs.Analysis

open BuxnLs.Lib BuxnLs.Model

/-! ## The contents of files -/

/-- The captured content of a file. -/
def contentOf (a : Analyzer) (f : Str) : Option Str := (a.files.find? f).map File.content

theorem keeps_contents : TextKeeps fun a b => contentOf b = contentOf a where
  refl := fun _ => rfl
  trans := fun h h' => h'.trans h
  text := by
    intro a b _ ht
    funext f
    have hcontent := congrArg (Option.map Prod.fst) (ht f)
    rw [Option.map_map, Option.map_map] at hcontent
    exact hcontent
  split := by
    intro a filename
    funext f
    exact (splitFile_linesOnly a filename).field f fun _ => rfl

theorem contentOf_captureFile (a : Analyzer) (filename content f : Str) :
    contentOf (captureFile a filename content) f =
      if f = filename then (contentOf a f).or (some content) else contentOf a f := by
  unfold captureFile contentOf
  split
  · rename_i hsome
    split
    · rename_i hf
      obtain ⟨file, hfile⟩ := Option.isSome_iff_exists.mp hsome
      rw [hf, hfile]
      rfl
    · rfl
  · rename_i hnone
    rw [Option.not_isSome_iff_eq_none] at hnone
    unfold putFile
    rw [Table.find?_put]
    by_cases hf : f = filename
    · rw [if_pos hf.symm, if_pos hf, hf, hnone]
      rfl
    · rw [if_neg (Ne.symm hf), if_neg hf]

/-- What an open finds is the captured content, or that of this moment. -/
theorem findContent_eq (a : Analyzer) (docs : Docs) (disk : Option Str) (f : Str) :
    findContent a docs disk f = (contentOf a f).or (contentNow docs disk f) := by
  unfold findContent contentOf contentNow
  cases a.files.find? f <;> rfl

/-- The contents after a step, from those before. -/
def contentAfter (c : Str → Option Str) : Label → Str → Option Str
  | .start _, _ => none
  | .event (.fopen docs filename disk), f =>
    if f = filename.chars then (c f).or (contentNow docs disk f) else c f
  | _, f => c f

theorem textBase_contents (a : Analyzer) {l : Label} (hl : ∀ docs, l ≠ .start docs) :
    contentOf (textBase a l) = contentAfter (contentOf a) l := by
  funext f
  unfold textBase contentAfter
  split
  · rename_i docs filename disk
    have hfound := findContent_eq a docs disk filename.chars
    dsimp only
    cases hfind : findContent a docs disk filename.chars with
    | none =>
        dsimp only
        split
        · rename_i hf
          rw [hf, ← hfound, hfind]
          rw [hfind, eq_comm, Option.or_eq_none_iff] at hfound
          exact hfound.1
        · rfl
    | some content =>
        dsimp only
        rw [contentOf_captureFile, ← hfind, hfound]
        split
        · rename_i hf
          rw [hf, ← Option.or_assoc, Option.or_self]
        · rfl
  · rename_i hother
    split
    · exact absurd rfl (hl _)
    · exact absurd rfl (hother _ _ _)
    · rfl

/-- Only the start of a run and the first open of a file change what is captured. -/
theorem step_contents {E : Env} {m m' : Machine} {l : Label} (h : step E m l = some m') :
    contentOf m'.analyzer = contentAfter (contentOf m.analyzer) l := by
  by_cases hl : ∀ docs, l ≠ .start docs
  · exact (keeps_contents.step hl h).trans (textBase_contents m.analyzer hl)
  · simp only [not_forall, not_not] at hl
    obtain ⟨docs, rfl⟩ := hl
    funext f
    unfold contentOf
    rw [(start_texts h).2, Table.find?_empty]
    rfl

/-! ## One stream -/

/-- The first `n` values that reading gives when a byte is converted by `convert`. -/
def valuesOf (convert : UInt8 → Int) (content : Str) (n : Nat) : List Int :=
  (content.take n).map convert ++ List.replicate (n - content.length) (-1)

theorem valuesOf_zero (convert : UInt8 → Int) (content : Str) :
    valuesOf convert content 0 = [] := by
  unfold valuesOf
  rw [List.take_zero, Nat.zero_sub]
  rfl

theorem valuesOf_succ (convert : UInt8 → Int) (content : Str) (n : Nat) :
    valuesOf convert content (n + 1) =
      valuesOf convert content n ++ [(content[n]?).elim (-1) convert] := by
  unfold valuesOf
  rcases Nat.lt_or_ge n content.length with h | h
  · rw [List.getElem?_eq_getElem h, Nat.sub_eq_zero_of_le h, Nat.sub_eq_zero_of_le (Nat.le_of_lt h),
      ← List.take_append_getElem h, List.map_append, List.replicate_zero, List.append_nil,
      List.append_nil]
    rfl
  · rw [List.getElem?_eq_none h, List.take_of_length_le h, List.take_of_length_le (by omega),
      Nat.sub_add_comm h, List.replicate_succ', List.append_assoc]
    rfl

/-- A stream stands behind what was read of its content. -/
structure StreamOK (captured : Str → Option Str) (s : Stream) : Prop where
  content : captured s.filename = some s.file.content
  offset : s.file.offset = min s.reads.length s.file.content.length
  reads : s.reads = valuesOf signedChar s.file.content s.reads.length

theorem StreamOK.fgetc {captured : Str → Option Str} {s : Stream} (h : StreamOK captured s) :
    StreamOK captured s.fgetc := by
  have hlen : s.file.content[s.file.offset]? = s.file.content[s.reads.length]? := by
    rw [h.offset]
    rcases Nat.lt_or_ge s.reads.length s.file.content.length with hlt | hge
    · rw [Nat.min_eq_left (Nat.le_of_lt hlt)]
    · rw [Nat.min_eq_right hge, List.getElem?_eq_none hge, List.getElem?_eq_none (Nat.le_refl _)]
  have hreads : ∀ value, (s.file.content[s.reads.length]?).elim (-1) signedChar = value →
      s.reads ++ [value] = valuesOf signedChar s.file.content (s.reads ++ [value]).length := by
    rintro value rfl
    rw [List.length_append, List.length_singleton, valuesOf_succ, ← h.reads]
  unfold Stream.fgetc asmFgetc
  rw [hlen]
  cases hch : s.file.content[s.reads.length]? with
  | none =>
      refine ⟨h.content, ?_, hreads _ (by rw [hch]; rfl)⟩
      have hge := List.getElem?_eq_none_iff.mp hch
      have hoffset := h.offset
      dsimp only
      rw [List.length_append, List.length_singleton]
      omega
  | some ch =>
      refine ⟨h.content, ?_, hreads _ (by rw [hch]; rfl)⟩
      obtain ⟨hlt, -⟩ := List.getElem?_eq_some_iff.mp hch
      have hoffset := h.offset
      dsimp only
      rw [List.length_append, List.length_singleton]
      omega

theorem StreamOK.mono {captured captured' : Str → Option Str} {s : Stream}
    (h : StreamOK captured s)
    (hc : ∀ f content, captured f = some content → captured' f = some content) :
    StreamOK captured' s :=
  ⟨hc _ _ h.content, h.offset, h.reads⟩

theorem signedChar_eq_iff (ch : UInt8) : signedChar ch = ch.toNat ↔ ch.toNat < 128 := by
  unfold signedChar
  split <;> omega

/-- The values are those of the bytes as long as no byte is from 0x80 on. -/
theorem valuesOf_signed_iff (content : Str) (n : Nat) :
    valuesOf signedChar content n = valuesOf (fun ch => ch.toNat) content n ↔
      ∀ ch ∈ content.take n, ch.toNat < 128 := by
  unfold valuesOf
  rw [List.append_left_inj, List.map_inj_left]
  exact forall₂_congr fun ch _ => signedChar_eq_iff ch

/-! ## All streams of a run -/

structure StreamsOK (s : StreamMachine) : Prop where
  captured : s.captured.find? = contentOf s.machine.analyzer
  streams : ∀ stream ∈ s.streams, StreamOK s.captured.find? stream

theorem streamsOK_init : StreamsOK .init where
  captured := rfl
  streams := fun _ h => absurd h List.not_mem_nil

theorem noteCapture_find? (captured : Table Str Str) (docs : Docs) (filename : CStr)
    (disk : Option Str) :
    (noteCapture captured docs disk filename.chars).find? =
      contentAfter captured.find? (.event (.fopen docs filename disk)) := by
  funext f
  unfold noteCapture contentAfter
  dsimp only
  cases hf : captured.find? filename.chars with
  | some content =>
      dsimp only
      split
      · rename_i he
        rw [he, hf]
        rfl
      · rfl
  | none =>
      cases hnow : contentNow docs disk filename.chars with
      | none =>
          dsimp only
          split
          · rename_i he
            rw [he, hf, hnow]
            rfl
          · rfl
      | some content =>
          dsimp only
          rw [Table.find?_put]
          by_cases he : f = filename.chars
          · rw [if_pos he.symm, if_pos he, he, hf, hnow]
            rfl
          · rw [if_neg (Ne.symm he), if_neg he]

theorem streamsAfter_machine (E : Env) (m : Machine) (s : StreamMachine) (m' : Machine)
    (l : Label) : (streamsAfter E m s m' l).machine = m' := by
  unfold streamsAfter
  split
  · rfl
  · dsimp only
    split
    · rfl
    · split <;> rfl
  · rfl

theorem streamsAfter_captured {E : Env} {s : StreamMachine} (m m' : Machine) (l : Label) :
    (streamsAfter E m s m' l).captured.find? = contentAfter s.captured.find? l := by
  cases l with
  | start docs =>
      funext f
      exact Table.find?_empty f
  | event ev =>
      cases ev with
      | fopen docs filename disk =>
          rw [← noteCapture_find?]
          unfold streamsAfter
          dsimp only
          split
          · rfl
          · split <;> rfl
      | report type r => rfl
      | putRom addr value => rfl
      | putSymbol addr sym annos => rfl
      | chessReport traceId type r => rfl
      | chessDeo traceId s value port => rfl
  | skip => rfl
  | enter => rfl
  | asmDone success => rfl
  | chessDone => rfl
  | leave => rfl
  | finish => rfl

/-- Outside the start of a run what is captured stays captured. -/
theorem contentAfter_mono {c : Str → Option Str} {l : Label} (hl : ∀ docs, l ≠ .start docs)
    {f content : Str} (h : c f = some content) : contentAfter c l f = some content := by
  unfold contentAfter
  split
  · exact absurd rfl (hl _)
  · split
    · rw [h]
      rfl
    · exact h
  · exact h

/-- The streams after a step: none at the start of a run, and otherwise those from before and
    perhaps one that stands at the start of the captured content. -/
theorem mem_streamsAfter {E : Env} {s : StreamMachine} {m' : Machine} {l : Label}
    {stream : Stream} (h : stream ∈ (streamsAfter E s.machine s m' l).streams) :
    (∀ docs, l ≠ .start docs) ∧
      (stream ∈ s.streams ∨ ∃ docs filename disk ctx content,
        l = .event (.fopen docs filename disk) ∧
        findContent s.machine.analyzer docs disk filename.chars = some content ∧
        s.machine.phase.passCtx = some ctx ∧
          stream = ⟨⟨content, 0⟩, true, filename.chars, []⟩) := by
  unfold streamsAfter at h
  split at h
  · exact absurd h List.not_mem_nil
  · rename_i docs filename disk
    refine ⟨fun _ he => (by cases he), ?_⟩
    dsimp only at h
    split at h
    · exact Or.inl h
    · rename_i ctx hctx
      split at h
      · exact Or.inl h
      · rename_i file hfile
        rcases List.mem_append.mp h with h | h
        · exact Or.inl h
        · right
          cases hfind : findContent s.machine.analyzer docs disk filename.chars with
          | none =>
              unfold asmFopen at hfile
              simp only [hfind] at hfile
              cases hfile
          | some content =>
              have hopened : (asmFopen E ⟨s.machine.analyzer, ctx⟩ docs filename disk).2 =
                  some ⟨content, 0⟩ := by
                unfold asmFopen
                rw [hfind]
              rw [hopened] at hfile
              obtain rfl := Option.some.inj hfile
              exact ⟨docs, filename, disk, ctx, content, rfl, hfind, hctx,
                List.mem_singleton.mp h⟩
  · rename_i hother _
    exact ⟨fun docs he => hother docs he, Or.inl h⟩

theorem fgetc_cases {E : Env} {s s' : StreamMachine} {handle : Nat}
    (h : streamStep E s (.fgetc handle) = some s') :
    ∃ stream, s.streams[handle]? = some stream ∧
      s' = { s with streams := s.streams.set handle stream.fgetc } := by
  unfold streamStep at h
  dsimp only at h
  split at h
  · rename_i stream _ hstream
    split at h
    · exact ⟨stream, hstream, (Option.some.inj h).symm⟩
    · cases h
  · cases h

theorem fclose_cases {E : Env} {s s' : StreamMachine} {handle : Nat}
    (h : streamStep E s (.fclose handle) = some s') :
    ∃ stream, s.streams[handle]? = some stream ∧
      s' = { s with streams := s.streams.set handle { stream with isOpen := false } } := by
  unfold streamStep at h
  dsimp only at h
  split at h
  · rename_i stream _ hstream
    split at h
    · exact ⟨stream, hstream, (Option.some.inj h).symm⟩
    · cases h
  · cases h

theorem streamStep_ok {E : Env} {s s' : StreamMachine} {l : StreamLabel} (h : StreamsOK s)
    (hs : streamStep E s l = some s') : StreamsOK s' := by
  cases l with
  | step l =>
      obtain ⟨m', hm, rfl⟩ := Option.map_eq_some_iff.mp hs
      refine ⟨?_, fun stream hstream => ?_⟩
      · rw [streamsAfter_captured, streamsAfter_machine, h.captured, step_contents hm]
      · rw [streamsAfter_captured]
        obtain ⟨hl, hold | ⟨docs, filename, disk, ctx, content, rfl, hfind, -, rfl⟩⟩ :=
          mem_streamsAfter hstream
        · exact (h.streams stream hold).mono fun f content hc => contentAfter_mono hl hc
        · refine ⟨?_, (Nat.zero_min _).symm, (valuesOf_zero _ _).symm⟩
          rw [findContent_eq, ← h.captured] at hfind
          exact (if_pos rfl).trans hfind
  | fgetc handle =>
      obtain ⟨stream, hstream, rfl⟩ := fgetc_cases hs
      refine ⟨h.captured, fun other hother => ?_⟩
      rcases List.mem_or_eq_of_mem_set hother with hother | rfl
      · exact h.streams other hother
      · exact (h.streams stream (List.mem_of_getElem? hstream)).fgetc
  | fclose handle =>
      obtain ⟨stream, hstream, rfl⟩ := fclose_cases hs
      refine ⟨h.captured, fun other hother => ?_⟩
      rcases List.mem_or_eq_of_mem_set hother with hother | rfl
      · exact h.streams other hother
      · obtain ⟨hcontent, hoffset, hreads⟩ := h.streams stream (List.mem_of_getElem? hstream)
        exact ⟨hcontent, hoffset, hreads⟩

theorem reachable_streamsOK {E : Env} {s : StreamMachine}
    (h : Reachable (streamStep E) StreamMachine.init s) : StreamsOK s :=
  h.inv streamsOK_init fun _ _ _ hs hstep => streamStep_ok hs hstep

/-- In every state of every run a stream over a file has yielded the bytes of the captured
    content in order, as values from 0 to 255 and -1 behind the last one, exactly when none of
    the bytes read so far is 0x80 or above. -/
theorem stream_exact_iff {E : Env} {s : StreamMachine}
    (h : Reachable (streamStep E) StreamMachine.init s) {stream : Stream}
    (hstream : stream ∈ s.streams) :
    ∃ content, s.captured.find? stream.filename = some content ∧
      (stream.reads = valuesOf (fun ch => ch.toNat) content stream.reads.length ↔
        ∀ ch ∈ content.take stream.reads.length, ch.toNat < 128) := by
  have hok := (reachable_streamsOK h).streams stream hstream
  refine ⟨stream.file.content, hok.content, ?_⟩
  rw [← valuesOf_signed_iff, ← hok.reads]

/-- Two opens of `a` in one pass; the document changes in between. -/
def openTwice (content changed : Str) : List StreamLabel :=
  let docs := Table.empty.put (ascii "a") content
  [.step (.start docs), .step .enter, .step (.event (.fopen docs ⟨1, ascii "a"⟩ none)),
    .step (.event (.fopen (docs.put (ascii "a") changed) ⟨1, ascii "a"⟩ none))]

/-- What is captured of `a` after some labels, and what its streams have read. -/
def readsAfter (ls : List StreamLabel) : Option (Option Str × List (Str × List Int)) :=
  (run (streamStep asciiEnv) StreamMachine.init ls).map fun s =>
    (s.captured.find? (ascii "a"), s.streams.map fun stream => (stream.filename, stream.reads))

theorem readsAfter_some {ls : List StreamLabel} {content : Option Str}
    {reads : List (Str × List Int)} (h : readsAfter ls = some (content, reads)) {r : List Int}
    (hr : (ascii "a", r) ∈ reads) :
    ∃ s stream, run (streamStep asciiEnv) StreamMachine.init ls = some s ∧
      s.captured.find? stream.filename = content ∧ stream ∈ s.streams ∧ stream.reads = r := by
  obtain ⟨s, hs, h⟩ := Option.map_eq_some_iff.mp h
  obtain ⟨hcontent, hreads⟩ := Prod.mk.inj h
  rw [← hreads] at hr
  obtain ⟨stream, hstream, hboth⟩ := List.mem_map.mp hr
  obtain ⟨hfile, hread⟩ := Prod.mk.inj hboth
  exact ⟨s, stream, hs, hfile ▸ hcontent, hstream, hread⟩

/-- Each stream reads the content of the first open at its own pace. -/
theorem stream_exact_twice :
    ∃ s stream, run (streamStep asciiEnv) StreamMachine.init
        (openTwice (ascii "ab") (ascii "z") ++
          [.fgetc 1, .fgetc 0, .fgetc 1, .fclose 0, .fgetc 1]) = some s ∧
      s.captured.find? stream.filename = some (ascii "ab") ∧ stream ∈ s.streams ∧
      stream.reads = valuesOf (fun ch => ch.toNat) (ascii "ab") 3 := by
  have hout : readsAfter (openTwice (ascii "ab") (ascii "z") ++
        [.fgetc 1, .fgetc 0, .fgetc 1, .fclose 0, .fgetc 1]) =
      some (some (ascii "ab"), [(ascii "a", [0x61]), (ascii "a", [0x61, 0x62, -1])]) := by
    decide
  obtain ⟨s, stream, hs, hcontent, hstream, hreads⟩ := readsAfter_some hout
    (List.mem_cons_of_mem _ (List.mem_singleton_self _))
  obtain ⟨content, hcaptured, hiff⟩ := stream_exact_iff ⟨_, hs⟩ hstream
  obtain rfl : content = ascii "ab" := Option.some.inj (hcaptured.symm.trans hcontent)
  have hascii := (valuesOf_signed_iff (ascii "ab") 3).mp (by decide)
  rw [hreads] at hiff
  exact ⟨s, stream, hs, hcontent, hstream, hreads.trans (hiff.mpr hascii)⟩

/-- `a` is read from disk. -/
def readFromDisk (content : Str) : List StreamLabel :=
  let docs := Table.empty.put (ascii "b") (ascii "~a")
  [.step (.start docs), .step .enter, .step (.event (.fopen docs ⟨1, ascii "b"⟩ none)),
    .step (.event (.fopen docs ⟨1, ascii "a"⟩ (some content)))]

/-- The byte 0xff in front of a file ends it. -/
theorem stream_exact_fails :
    ∃ s stream, run (streamStep asciiEnv) StreamMachine.init
        (readFromDisk [0xff, 0x61] ++ [.fgetc 1]) = some s ∧
      s.captured.find? stream.filename = some [0xff, 0x61] ∧ stream ∈ s.streams ∧
      stream.reads = [-1] ∧
      stream.reads ≠ valuesOf (fun ch => ch.toNat) [0xff, 0x61] stream.reads.length := by
  have hout : readsAfter (readFromDisk [0xff, 0x61] ++ [.fgetc 1]) =
      some (some [0xff, 0x61], [(ascii "b", []), (ascii "a", [-1])]) := by
    decide
  obtain ⟨s, stream, hs, hcontent, hstream, hreads⟩ := readsAfter_some hout
    (List.mem_cons_of_mem _ (List.mem_singleton_self _))
  refine ⟨s, stream, hs, hcontent, hstream, hreads, ?_⟩
  rw [hreads]
  decide

end BuxnLs.Analysis
