/-
  What an answer owes to the past. Two analyzers that go through the same run may number its
  symbols differently, since a file with an error also keeps symbols of the run before. `Agree`
  matches the definitions of the run one to one; the references of the run resolve to matched
  definitions, so go-to-definition and hover come out alike whatever was analyzed before. Without
  errors nothing is kept and every answer does.
-/
import BuxnLs.Analysis.Indexing

namespace BuxnLs.Analysis

open BuxnLs.Lib BuxnLs.Model

/-! ## Two indexes of one run -/

/-- The references, newest first. -/
def referencesIn (ix : Index) : List IndexEntry :=
  (newest (fun e : IndexEntry => e.target.isSome) ix.log).map Prod.fst

/-- No file of the run has an error. -/
def Clean (s : Indexer) : Prop :=
  ∀ f file, s.captured.find? f = some file → file.hasError = false

/-- The same reference, to matched definitions. -/
def SameReference (M : Nat → Nat → Prop) (e e' : IndexEntry) : Prop :=
  ∃ i j, M i j ∧ e.target = some i ∧ e' = { e with target := some j }

structure Agree (M : Nat → Nat → Prop) (s t : Indexer) : Prop where
  files : s.index.files.Perm t.index.files
  captured : t.captured = s.captured
  matching : Matching M s.index.log t.index.log
  definitions : ∀ {i j}, M i j → ∀ e, s.index.log[i]? = some e → e.target = none
  references : List.Forall₂ (SameReference M) (referencesIn s.index) (referencesIn t.index)
  clean : Clean s → t.index.log = s.index.log ∧ ∀ i j, M i j → i = j

/-- During a pass the tables of the pass agree as well. -/
structure AgreeInPass (M : Nat → Nat → Prop) (s t : Indexer) : Prop extends Agree M s t where
  macros : List.Forall₂ M s.macros t.macros
  labels : ∀ k, Option.Rel M (s.labels.find? k) (t.labels.find? k)
  pending : t.pending = s.pending

structure PassAgree (M : Nat → Nat → Prop) (p q : IndexPass) : Prop where
  previousSym : q.previousSym = p.previousSym
  enumScope : q.enumScope = p.enumScope
  recent : Option.Rel M p.recent q.recent
  romIsEmpty : q.romIsEmpty = p.romIsEmpty

theorem SameReference.mono {M N : Nat → Nat → Prop} (h : ∀ i j, M i j → N i j)
    {e e' : IndexEntry} (hr : SameReference M e e') : SameReference N e e' := by
  obtain ⟨i, j, hm, he, he'⟩ := hr
  exact ⟨i, j, h i j hm, he, he'⟩

theorem rel_mono {M N : Nat → Nat → Prop} (h : ∀ i j, M i j → N i j) {x y : Option Nat}
    (hr : Option.Rel M x y) : Option.Rel N x y := by
  cases hr with
  | some hm => exact .some (h _ _ hm)
  | none => exact .none

theorem withPair_old (M : Nat → Nat → Prop) (n n' i j : Nat) (h : M i j) :
    withPair M n n' i j := Or.inl h

theorem withPair_new (M : Nat → Nat → Prop) (n n' : Nat) : withPair M n n' n n' :=
  Or.inr ⟨rfl, rfl⟩

section Changes

variable {M : Nat → Nat → Prop} {s t : Indexer}

theorem Agree.log_congr (h : Agree M s t) {u v : Indexer} (hu : u.index = s.index)
    (hv : v.index = t.index) (hc : v.captured = u.captured) (hclean : Clean u → Clean s) :
    Agree M u v where
  files := by rw [hu, hv]; exact h.files
  captured := hc
  matching := by rw [hu, hv]; exact h.matching
  definitions := by rw [hu]; exact h.definitions
  references := by rw [hu, hv]; exact h.references
  clean := fun hc => by rw [hu, hv]; exact h.clean (hclean hc)

theorem note_eq (s : Indexer) (f : Str) (g : Captured → Captured) :
    s.note f g = { s with captured := (s.note f g).captured } := by
  unfold Indexer.note
  split <;> rfl

theorem note_captured_congr (h : t.captured = s.captured) (f : Str) (g : Captured → Captured) :
    (t.note f g).captured = (s.note f g).captured := by
  unfold Indexer.note
  rw [h]
  split
  · exact h
  · rfl

/-- A change that removes no error. -/
def KeepsErrors (g : Captured → Captured) : Prop :=
  ∀ c : Captured, (g c).hasError = false → c.hasError = false

theorem clean_of_note {f : Str} {g : Captured → Captured} (hg : KeepsErrors g)
    (h : Clean (s.note f g)) : Clean s := by
  intro k file hk
  by_cases he : f = k
  · subst he
    refine hg file (h f (g file) ?_)
    unfold Indexer.note
    rw [hk]
    exact Table.find?_put_self _ _ _
  · refine h k file ?_
    unfold Indexer.note
    split
    · exact hk
    · exact (Table.find?_put_ne _ _ he).trans hk

theorem Agree.note (h : Agree M s t) (f : Str) {g : Captured → Captured} (hg : KeepsErrors g) :
    Agree M (s.note f g) (t.note f g) :=
  h.log_congr (by rw [note_eq]) (by rw [note_eq]) (note_captured_congr h.captured f g)
    (clean_of_note hg)

theorem AgreeInPass.note (h : AgreeInPass M s t) (f : Str) {g : Captured → Captured}
    (hg : KeepsErrors g) : AgreeInPass M (s.note f g) (t.note f g) where
  toAgree := h.toAgree.note f hg
  macros := by rw [note_eq, note_eq t]; exact h.macros
  labels := by rw [note_eq, note_eq t]; exact h.labels
  pending := by rw [note_eq t, note_eq s]; exact h.pending

theorem Agree.mem_files (h : Agree M s t) (f : Str) : f ∈ t.index.files ↔ f ∈ s.index.files :=
  h.files.mem_iff.symm

theorem AgreeInPass.addFile (h : AgreeInPass M s t) (f : Str) {c : Table Str Captured}
    (hc : Clean { s with captured := c } → Clean s) :
    AgreeInPass M { s with index := s.index.addFile f, captured := c }
      { t with index := t.index.addFile f, captured := c } := by
  have hlog : ∀ ix : Index, (ix.addFile f).log = ix.log := by
    intro ix
    unfold Index.addFile
    split <;> rfl
  refine ⟨⟨?_, rfl, ?_, ?_, ?_, ?_⟩, h.macros, h.labels, h.pending⟩
  · unfold Index.addFile
    dsimp only
    by_cases hf : f ∈ s.index.files
    · rw [if_pos hf, if_pos ((h.mem_files f).mpr hf)]
      exact h.files
    · rw [if_neg hf, if_neg fun hm => hf ((h.mem_files f).mp hm)]
      exact h.files.append_right [f]
  · dsimp only
    rw [hlog, hlog]
    exact h.matching
  · dsimp only
    rw [hlog]
    exact h.definitions
  · unfold referencesIn
    rw [hlog, hlog]
    exact h.references
  · intro hclean
    dsimp only
    rw [hlog, hlog]
    exact h.clean (hc hclean)

theorem AgreeInPass.fopen (h : AgreeInPass M s t) (docs : Docs) (f : Str) (disk : Option Str) :
    AgreeInPass M (s.fopen docs f disk) (t.fopen docs f disk) := by
  unfold Indexer.fopen
  rw [h.captured]
  cases hf : s.captured.find? f with
  | some file =>
      exact h.addFile f id
  | none =>
      dsimp only
      split
      · exact h
      · next content _ =>
          refine h.addFile f fun hclean k file hk => hclean k file ?_
          have hne : f ≠ k := fun he => by
            rw [← he, hf] at hk
            cases hk
          exact (Table.find?_put_ne _ _ hne).trans hk

theorem AgreeInPass.report (h : AgreeInPass M s t) (type : ReportType) (r : Report) :
    AgreeInPass M (s.report type r) (t.report type r) := by
  unfold Indexer.report
  split
  · exact h.note _ fun c hc => by cases hc
  · exact h

theorem Agree.rangeOf (h : Agree M s t) (E : Env) (region : AsmRegion) :
    t.rangeOf E region = s.rangeOf E region := by
  unfold Indexer.rangeOf
  rw [h.captured]

theorem Agree.textAt (h : Agree M s t) (region : AsmRegion) :
    t.textAt region = s.textAt region := by
  unfold Indexer.textAt
  rw [h.captured]

theorem Agree.entry (h : Agree M s t) (E : Env) (sym : AsmSym) :
    t.entry E sym = s.entry E sym := by
  unfold Indexer.entry
  rw [h.rangeOf]
  simp only [h.mem_files]

theorem referencesIn_add (ix : Index) (e : IndexEntry) :
    referencesIn (ix.add e) =
      if e.target.isSome then e :: referencesIn ix else referencesIn ix := by
  unfold referencesIn Index.add
  rw [newest_concat]
  split <;> rfl

/-- Both add a definition. -/
theorem Agree.addDefinition (h : Agree M s t) {e : IndexEntry} (he : e.target = none) :
    Agree (withPair M s.index.log.length t.index.log.length)
      { s with index := s.index.add e } { t with index := t.index.add e } where
  files := h.files
  captured := h.captured
  matching := h.matching.concat e
  definitions := by
    rintro i j hm e' he'
    dsimp only [Index.add] at he'
    rcases hm with hm | ⟨rfl, -⟩
    · rw [List.getElem?_append_left (h.matching.lt hm).1] at he'
      exact h.definitions hm e' he'
    · rw [List.getElem?_concat_length] at he'
      cases he'
      exact he
  references := by
    have hnone : ¬ e.target.isSome = true := by simp [he]
    dsimp only
    rw [referencesIn_add, referencesIn_add, if_neg hnone, if_neg hnone]
    exact h.references.imp fun _ _ hr => hr.mono (withPair_old M _ _)
  clean := by
    intro hc
    obtain ⟨hlog, hdiag⟩ := h.clean hc
    refine ⟨?_, ?_⟩
    · dsimp only [Index.add]
      rw [hlog]
    · rintro i j (hm | ⟨rfl, rfl⟩)
      · exact hdiag i j hm
      · rw [hlog]

/-- Both add a reference, to matched definitions. -/
theorem Agree.addReference (h : Agree M s t) {e : IndexEntry} {i j : Nat} (hm : M i j) :
    Agree M { s with index := s.index.add { e with target := some i } }
      { t with index := t.index.add { e with target := some j } } where
  files := h.files
  captured := h.captured
  matching := h.matching.append _ _
  definitions := by
    intro k l hk e' he'
    dsimp only [Index.add] at he'
    rw [List.getElem?_append_left (h.matching.lt hk).1] at he'
    exact h.definitions hk e' he'
  references := by
    dsimp only
    rw [referencesIn_add, referencesIn_add, Option.isSome_some, if_pos rfl, Option.isSome_some,
      if_pos rfl]
    exact .cons ⟨i, j, hm, rfl, rfl⟩ h.references
  clean := by
    intro hc
    obtain ⟨hlog, hdiag⟩ := h.clean hc
    refine ⟨?_, hdiag⟩
    dsimp only [Index.add]
    rw [hlog, hdiag i j hm]

/-- Both rewrite matched definitions. -/
theorem Agree.rewrite (h : Agree M s t) {i j : Nat} (hm : M i j) {f : IndexEntry → IndexEntry}
    (hf : ∀ e, (f e).target = e.target) :
    Agree M { s with index := s.index.rewrite i f } { t with index := t.index.rewrite j f } where
  files := h.files
  captured := h.captured
  matching := h.matching.modify hm f
  definitions := by
    intro k l hk e he
    dsimp only [Index.rewrite] at he
    obtain ⟨e', he', rfl⟩ := (getElem?_modify_iff _ _ _ _ _).mp he
    have htarget := h.definitions hk e' he'
    split
    · rw [hf, htarget]
    · exact htarget
  references := by
    have hsame : ∀ (ix : Index) (k : Nat), (∀ e, ix.log[k]? = some e → e.target = none) →
        referencesIn (ix.rewrite k f) = referencesIn ix := by
      intro ix k hk
      unfold referencesIn Index.rewrite
      rw [newest_modify_of_not fun e he => by simp [hf, hk e he]]
    obtain ⟨e, he, he'⟩ := h.matching.same hm
    have hnone := h.definitions hm e he
    dsimp only
    rw [hsame s.index i (h.definitions hm), hsame t.index j fun e' hj => by
      rw [he'] at hj
      cases hj
      exact hnone]
    exact h.references
  clean := by
    intro hc
    obtain ⟨hlog, hdiag⟩ := h.clean hc
    refine ⟨?_, hdiag⟩
    dsimp only [Index.rewrite]
    rw [hlog, hdiag i j hm]

/-- Both keep old definitions, the same ones when nothing has an error. -/
theorem Agree.extend (h : Agree M s t) {es es' : List IndexEntry}
    (he : ∀ e ∈ es, e.target = none) (he' : ∀ e ∈ es', e.target = none)
    (hsame : Clean s → es' = es) : Agree M (s.extend es) (t.extend es') where
  files := h.files
  captured := h.captured
  matching := h.matching.append es es'
  definitions := by
    intro i j hm e hi
    dsimp only [Indexer.extend] at hi
    rw [List.getElem?_append_left (h.matching.lt hm).1] at hi
    exact h.definitions hm e hi
  references := by
    have hextend : ∀ (ix : Index) (es : List IndexEntry), (∀ e ∈ es, e.target = none) →
        referencesIn { ix with log := ix.log ++ es } = referencesIn ix := by
      intro ix es hes
      induction es using List.reverseRecOn with
      | nil => rw [List.append_nil]
      | append_singleton es e ih =>
          have hnone : e.target = none := hes e (by simp)
          have hadd := referencesIn_add { ix with log := ix.log ++ es } e
          rw [if_neg (by simp [hnone]), ih fun e' h' => hes e' (by simp [h'])] at hadd
          rw [← hadd, ← List.append_assoc]
          rfl
    unfold Indexer.extend
    dsimp only
    rw [hextend _ es he, hextend _ es' he']
    exact h.references
  clean := by
    intro hc
    obtain ⟨hlog, hdiag⟩ := h.clean hc
    refine ⟨?_, hdiag⟩
    dsimp only [Indexer.extend]
    rw [hlog, hsame hc]

end Changes

/-! ## The events of a pass -/

section Events

variable {E : Env} {M : Nat → Nat → Prop} {s t s' t' : Indexer} {p q p' q' : IndexPass}

/-- What one event leaves agrees again, with more matched definitions. -/
def AgreeAfter (s' t' : Indexer) (p' q' : IndexPass) : Prop :=
  ∃ M, AgreeInPass M s' t' ∧ PassAgree M p' q'

theorem PassAgree.kindOf (h : PassAgree M p q) (file : Captured) (addr : UInt16) (name : Str) :
    Indexer.kindOf q file addr name = Indexer.kindOf p file addr name := by
  unfold Indexer.kindOf
  rw [h.enumScope]

theorem PassAgree.repeats (h : PassAgree M p q) (sym : AsmSym) :
    q.repeats sym = p.repeats sym := by
  unfold IndexPass.repeats
  rw [h.previousSym]

/-- A new definition in both, with what a label or a macro adds to the tables of the pass. -/
theorem AgreeInPass.addDefinition (h : AgreeInPass M s t) (hp : PassAgree M p q)
    {e : IndexEntry} (he : e.target = none) (scope : Str) (id : UInt16) (label : Bool) :
    AgreeAfter
      { s with
          index := s.index.add e
          labels := if label then s.labels.put id s.index.log.length else s.labels
          macros := if label then s.macros else s.macros ++ [s.index.log.length] }
      { t with
          index := t.index.add e
          labels := if label then t.labels.put id t.index.log.length else t.labels
          macros := if label then t.macros else t.macros ++ [t.index.log.length] }
      { p with enumScope := scope, recent := some s.index.log.length }
      { q with enumScope := scope, recent := some t.index.log.length } := by
  have hold := withPair_old M s.index.log.length t.index.log.length
  have hnew := withPair_new M s.index.log.length t.index.log.length
  have hadd := h.toAgree.addDefinition he
  have hmacros := h.macros.imp hold
  refine ⟨_, ⟨⟨hadd.files, hadd.captured, hadd.matching, hadd.definitions, hadd.references,
    hadd.clean⟩, ?_, ?_, h.pending⟩, hp.previousSym, rfl, .some hnew, hp.romIsEmpty⟩
  · dsimp only
    split
    · exact hmacros
    · exact List.rel_append hmacros (.cons hnew .nil)
  · intro k
    dsimp only
    split
    · rw [Table.find?_put, Table.find?_put]
      split
      · exact .some hnew
      · exact rel_mono hold (h.labels k)
    · exact rel_mono hold (h.labels k)

theorem AgreeInPass.define (h : AgreeInPass M s t) (hp : PassAgree M p q) {addr : UInt16}
    {sym : AsmSym} (hs : s.define E p addr sym = some (s', p'))
    (ht : t.define E q addr sym = some (t', q')) : AgreeAfter s' t' p' q' := by
  unfold Indexer.define at hs ht
  rw [h.captured] at ht
  cases hfile : s.captured.find? sym.region.filename.chars with
  | none =>
      rw [hfile] at hs
      cases hs
  | some file =>
      rw [hfile] at hs ht
      let g : Captured → Captured := fun file =>
        { file with lastSymbolByte := max file.lastSymbolByte sym.region.range.start.byte }
      have hnote := h.note sym.region.filename.chars (g := g) fun _ hc => hc
      dsimp only at hs ht
      generalize s.note sym.region.filename.chars g = u at hs hnote
      generalize t.note sym.region.filename.chars g = v at ht hnote
      by_cases hgen : sym.nameIsGenerated = true
      · rw [if_pos hgen] at hs ht
        cases hs
        cases ht
        exact ⟨M, hnote, hp⟩
      · rw [if_neg hgen] at hs ht
        rw [hnote.toAgree.entry] at ht
        obtain ⟨e, he, hs⟩ := Option.map_eq_some_iff.mp hs
        rw [he, Option.map_some] at ht
        have htarget : e.target = none := by
          unfold Indexer.entry at he
          split at he
          · cases he
            rfl
          · cases he
        by_cases hlabel : sym.type = .label
        · rw [if_pos hlabel, hp.kindOf] at ht
          rw [if_pos hlabel] at hs
          cases hs
          cases ht
          exact hnote.addDefinition hp
            (e := { e with semantics := (Indexer.kindOf p file addr sym.name).1 }) htarget _
            sym.id true
        · rw [if_neg hlabel] at hs ht
          cases hs
          cases ht
          have hafter := hnote.addDefinition hp (e := { e with semantics := .asSubroutine })
            htarget p.enumScope sym.id false
          have hscope := hp.enumScope
          obtain ⟨qprev, qscope, qrecent, qrom⟩ := q
          dsimp only at hscope
          subst hscope
          exact hafter

theorem AgreeInPass.rewrite (h : AgreeInPass M s t) (hp : PassAgree M p q)
    {f : IndexEntry → IndexEntry} (hf : ∀ e, (f e).target = e.target) :
    Option.Rel (AgreeInPass M)
      (p.recent.map fun number => { s with index := s.index.rewrite number f })
      (q.recent.map fun number => { t with index := t.index.rewrite number f }) := by
  have hrecent := hp.recent
  generalize p.recent = x at hrecent
  generalize q.recent = y at hrecent
  cases hrecent with
  | some hm => exact .some ⟨h.toAgree.rewrite hm hf, h.macros, h.labels, h.pending⟩
  | none => exact .none

/-- Both annotate their newest definition, or neither has one. -/
theorem AgreeInPass.rewritten (h : AgreeInPass M s t) (hp : PassAgree M p q)
    {f : IndexEntry → IndexEntry}
    (hs : (p.recent.map fun number => { s with index := s.index.rewrite number f }) = some s')
    (ht : (q.recent.map fun number => { t with index := t.index.rewrite number f }) = some t')
    (hf : ∀ e, (f e).target = e.target) : AgreeInPass M s' t' := by
  have hrel := h.rewrite hp hf
  rw [hs, ht] at hrel
  cases hrel with
  | some hagree => exact hagree

theorem AgreeInPass.annotate (h : AgreeInPass M s t) (hp : PassAgree M p q) {call : AnnoCall}
    (hs : s.annotate p call = some (s', p')) (ht : t.annotate q call = some (t', q')) :
    AgreeInPass M s' t' ∧ PassAgree M p' q' := by
  unfold Indexer.annotate at hs ht
  dsimp only at hs ht
  rw [h.toAgree.textAt] at ht
  cases hanno : call.annotation with
  | none =>
      rw [hanno] at hs ht
      obtain ⟨u, hu, hs⟩ := Option.map_eq_some_iff.mp hs
      obtain ⟨v, hv, ht⟩ := Option.map_eq_some_iff.mp ht
      cases hs
      cases ht
      exact ⟨h.rewritten hp hu hv fun _ => rfl, hp⟩
  | some annotation =>
      rw [hanno] at hs ht
      dsimp only at hs ht
      split at hs
      · cases hs
      · next hfile =>
          rw [if_neg (by rw [h.captured]; exact hfile)] at ht
          cases annotation with
          | doc =>
              obtain ⟨u, hu, hs⟩ := Option.map_eq_some_iff.mp hs
              obtain ⟨v, hv, ht⟩ := Option.map_eq_some_iff.mp ht
              cases hs
              cases ht
              exact ⟨h.rewritten hp hu hv fun _ => rfl, hp⟩
          | buxnDevice =>
              cases hs
              cases ht
              exact ⟨h.note _ fun _ hc => hc, hp⟩
          | buxnMemory =>
              cases hs
              cases ht
              exact ⟨h.note _ fun _ hc => hc, hp⟩
          | buxnEnum =>
              obtain ⟨u, hu, hs⟩ := Option.map_eq_some_iff.mp hs
              obtain ⟨v, hv, ht⟩ := Option.map_eq_some_iff.mp ht
              cases hs
              cases ht
              -- the scope is the name of the same definition
              have hscope : q.recent.bind (t.index.log[·]?) = p.recent.bind (s.index.log[·]?) := by
                have hrecent := hp.recent
                generalize p.recent = x at hrecent
                generalize q.recent = y at hrecent
                cases hrecent with
                | some hm =>
                    obtain ⟨e, he, he'⟩ := h.matching.same hm
                    rw [Option.bind_some, Option.bind_some, he, he']
                | none => rfl
              refine ⟨h.rewritten hp hu hv fun _ => rfl, hp.previousSym, ?_, hp.recent,
                hp.romIsEmpty⟩
              exact congrArg (fun o : Option IndexEntry => o.elim [] fun e => labelScope e.name)
                hscope

theorem AgreeInPass.annotations (h : AgreeInPass M s t) (hp : PassAgree M p q)
    {annos : List AnnoCall}
    (hs : annos.foldlM (fun sp call => sp.1.annotate sp.2 call) (s, p) = some (s', p'))
    (ht : annos.foldlM (fun sp call => sp.1.annotate sp.2 call) (t, q) = some (t', q')) :
    AgreeInPass M s' t' ∧ PassAgree M p' q' := by
  let annotated (sp : Indexer × IndexPass) (call : AnnoCall) := sp.1.annotate sp.2 call
  have hs : run annotated (s, p) annos = some (s', p') := hs
  have ht : run annotated (t, q) annos = some (t', q') := ht
  refine run_rel (R := fun sp tq : Indexer × IndexPass =>
    AgreeInPass M sp.1 tq.1 ∧ PassAgree M sp.2 tq.2)
    (fun call _ sp tq sp' tq' hR h1 h2 => ?_) ⟨h, hp⟩ hs ht
  exact hR.1.annotate hR.2 h1 h2

theorem AgreeInPass.symbol (h : AgreeInPass M s t) (hp : PassAgree M p q) {addr : UInt16}
    {sym : AsmSym} {annos : List AnnoCall}
    (hs : s.symbol E p addr sym annos = some (s', p'))
    (ht : t.symbol E q addr sym annos = some (t', q')) : AgreeAfter s' t' p' q' := by
  unfold Indexer.symbol at hs ht
  rw [hp.repeats] at ht
  split at hs
  · next hrep =>
      rw [if_pos hrep] at ht
      cases hs
      cases ht
      exact ⟨M, h, hp⟩
  · next hrep =>
      rw [if_neg hrep] at ht
      obtain ⟨⟨u, pu⟩, hu, hs⟩ := Option.bind_eq_some_iff.mp hs
      obtain ⟨⟨v, qv⟩, hv, ht⟩ := Option.bind_eq_some_iff.mp ht
      have hafter : AgreeAfter u v pu qv := by
        have hpend : s.pending ++ [sym] = t.pending ++ [sym] := by rw [h.pending]
        cases htype : sym.type with
        | macroDef | label =>
            rw [htype] at hu hv
            exact h.define hp hu hv
        | macroRef | labelRef =>
            rw [htype] at hu hv
            cases hu
            cases hv
            exact ⟨M, ⟨⟨h.files, h.captured, h.matching, h.definitions, h.references, h.clean⟩,
              h.macros, h.labels, hpend.symm⟩, hp⟩
        | other =>
            rw [htype] at hu hv
            cases hu
            cases hv
            exact ⟨M, h, hp⟩
      obtain ⟨N, hN, hpN⟩ := hafter
      obtain ⟨hagree, hpass⟩ := hN.annotations
        (p := { pu with previousSym := some sym }) (q := { qv with previousSym := some sym })
        ⟨rfl, hpN.enumScope, hpN.recent, hpN.romIsEmpty⟩ hs ht
      exact ⟨N, hagree, hpass⟩

theorem AgreeInPass.event (h : AgreeInPass M s t) (hp : PassAgree M p q) {ev : Event}
    (hs : s.event E p ev = some (s', p')) (ht : t.event E q ev = some (t', q')) :
    AgreeAfter s' t' p' q' := by
  cases ev with
  | fopen docs filename disk =>
      cases hs
      cases ht
      exact ⟨M, h.fopen docs _ disk, hp⟩
  | report type r =>
      cases hs
      cases ht
      exact ⟨M, h.report type r, hp⟩
  | putRom addr value =>
      cases hs
      cases ht
      exact ⟨M, h, hp.previousSym, hp.enumScope, hp.recent, rfl⟩
  | putSymbol addr sym annos => exact h.symbol hp hs ht
  | chessReport traceId type r =>
      cases hs
      cases ht
      exact ⟨M, h.report type r, hp⟩
  | chessDeo traceId state value port =>
      cases hs
      cases ht
      exact ⟨M, h, hp⟩

end Events

/-! ## The end of a pass -/

section Leave

variable {E : Env} {M : Nat → Nat → Prop} {s t s' t' : Indexer}

theorem AgreeInPass.resolve (h : AgreeInPass M s t) (sym : AsmSym) :
    Option.Rel M (s.resolve sym) (t.resolve sym) := by
  unfold Indexer.resolve
  cases sym.type with
  | macroRef =>
      dsimp only
      split
      · exact .none
      · have hlength := h.macros.length_eq
        generalize sym.id.toNat - 1 = i
        by_cases hi : i < s.macros.length
        · have hj : i < t.macros.length := hlength ▸ hi
          rw [List.getElem?_eq_getElem hi, List.getElem?_eq_getElem hj]
          exact .some (h.macros.get hi hj)
        · rw [List.getElem?_eq_none (Nat.not_lt.mp hi),
            List.getElem?_eq_none (hlength ▸ Nat.not_lt.mp hi)]
          exact .none
  | labelRef => exact h.labels sym.id
  | _ => exact .none

theorem AgreeInPass.connect (h : AgreeInPass M s t) {sym : AsmSym}
    (hs : s.connect E sym = some s') (ht : t.connect E sym = some t') :
    AgreeInPass M s' t' := by
  have hresolve := h.resolve sym
  unfold Indexer.connect at hs ht
  rw [h.toAgree.entry] at ht
  generalize s.resolve sym = x at hs hresolve
  generalize t.resolve sym = y at ht hresolve
  cases hresolve with
  | none =>
      cases hs
      cases ht
      exact h
  | some hm =>
      obtain ⟨e, he, rfl⟩ := Option.map_eq_some_iff.mp hs
      obtain ⟨e', he', rfl⟩ := Option.map_eq_some_iff.mp ht
      obtain rfl : e = e' := Option.some.inj (he.symm.trans he')
      exact ⟨h.toAgree.addReference hm, h.macros, h.labels, h.pending⟩

theorem target_of_kept {f : Str} {file : Captured} {e : IndexEntry} (h : e ∈ s.kept f file) :
    e.target = none := by
  unfold Indexer.kept at h
  split at h
  · obtain ⟨⟨e', i⟩, he, rfl⟩ := List.mem_map.mp (List.mem_filter.mp h).1
    have hdef := (mem_newest_iff.mp he).2
    simp only [Index.isDefinitionIn, decide_eq_true_eq] at hdef
    exact hdef.2
  · exact absurd h List.not_mem_nil

theorem kept_of_clean (h : Clean s) :
    (s.captured.entries.flatMap fun e => s.kept e.1 e.2) = [] := by
  refine List.flatMap_eq_nil_iff.mpr fun e he => ?_
  have herror := h e.1 e.2 ((s.captured.mem_entries_iff e.1 e.2).mp he)
  unfold Indexer.kept
  exact if_neg fun hk => by rw [herror] at hk; exact absurd hk.1 (by simp)

theorem AgreeInPass.leave (h : AgreeInPass M s t) (hs : s.leave E = some s')
    (ht : t.leave E = some t') : Agree M s' t' := by
  have htarget : ∀ u : Indexer, ∀ e ∈ u.captured.entries.flatMap (fun e => u.kept e.1 e.2),
      e.target = none := by
    intro u e he
    obtain ⟨file, -, hkept⟩ := List.mem_flatMap.mp he
    exact target_of_kept hkept
  have hclean : Clean s → Clean t := fun hc f file hf => hc f file (h.captured ▸ hf)
  have hextend := h.toAgree.extend (htarget s) (htarget t) fun hc => by
    rw [kept_of_clean hc, kept_of_clean (hclean hc)]
  have hall : AgreeInPass M (s.extend (s.captured.entries.flatMap fun e => s.kept e.1 e.2))
      (t.extend (t.captured.entries.flatMap fun e => t.kept e.1 e.2)) :=
    ⟨hextend, h.macros, h.labels, h.pending⟩
  unfold Indexer.leave at hs ht
  rw [h.pending] at ht
  have hs : run (Indexer.connect E) _ s.pending = some s' := hs
  have ht : run (Indexer.connect E) _ s.pending = some t' := ht
  have hfinal : AgreeInPass M s' t' :=
    run_rel (fun _ _ _ _ _ _ hR h1 h2 => hR.connect h1 h2) hall hs ht
  exact hfinal.toAgree

end Leave

/-! ## Runs -/

inductive StateAgree (M : Nat → Nat → Prop) : IndexState → IndexState → Prop where
  | idle {s t} : Agree M s t → StateAgree M ⟨s, .idle⟩ ⟨t, .idle⟩
  | loop {s t} : Agree M s t → StateAgree M ⟨s, .loop⟩ ⟨t, .loop⟩
  | asm {s t p q} : AgreeInPass M s t → PassAgree M p q → StateAgree M ⟨s, .asm p⟩ ⟨t, .asm q⟩
  | chess {s t p q} : AgreeInPass M s t → PassAgree M p q →
      StateAgree M ⟨s, .chess p⟩ ⟨t, .chess q⟩
  | ended {s t} : AgreeInPass M s t → StateAgree M ⟨s, .ended⟩ ⟨t, .ended⟩

theorem StateAgree.agree {M : Nat → Nat → Prop} {x y : IndexState} (h : StateAgree M x y) :
    Agree M x.indexer y.indexer := by
  cases h with
  | idle h => exact h
  | loop h => exact h
  | asm h _ => exact h.toAgree
  | chess h _ => exact h.toAgree
  | ended h => exact h.toAgree

/-- Two runs over the same documents start alike. -/
theorem start_agree {E : Env} {docs : Docs} {x y x' y' : IndexState}
    (hx : IndexStep E x (.start docs) x') (hy : IndexStep E y (.start docs) y') :
    StateAgree (fun _ _ => False) x' y' := by
  cases hx with
  | start hfiles =>
      cases hy with
      | start hfiles' =>
          exact .loop ⟨hfiles.trans hfiles'.symm, rfl, .none [] [], fun h => h.elim, .nil,
            fun _ => ⟨rfl, fun _ _ h => h.elim⟩⟩

/-- Any other step taken by both keeps the agreement. -/
theorem step_agree {E : Env} {l : Label} (hl : ∀ docs, l ≠ .start docs) {x y x' y' : IndexState}
    (h : ∃ M, StateAgree M x y) (hx : IndexStep E x l x') (hy : IndexStep E y l y') :
    ∃ M, StateAgree M x' y' := by
  obtain ⟨M, h⟩ := h
  cases hx with
  | start _ => exact absurd rfl (hl _)
  | skip =>
      cases hy
      exact ⟨M, h⟩
  | enter =>
      cases hy
      cases h with
      | loop h =>
          exact ⟨M, .asm ⟨⟨h.files, h.captured, h.matching, h.definitions, h.references, h.clean⟩,
            .nil, fun _ => .none, rfl⟩ ⟨rfl, rfl, .none, rfl⟩⟩
  | asm hs =>
      cases h with
      | asm h hp =>
          cases hy with
          | asm ht =>
              obtain ⟨N, hN, hpN⟩ := h.event hp hs ht
              exact ⟨N, .asm hN hpN⟩
  | chess hs =>
      cases h with
      | chess h hp =>
          cases hy with
          | chess ht =>
              obtain ⟨N, hN, hpN⟩ := h.event hp hs ht
              exact ⟨N, .chess hN hpN⟩
  | asmDone hrom =>
      cases h with
      | asm h hp =>
          cases hy with
          | asmDone _ => exact ⟨M, .chess h hp⟩
          | asmEnded hnot => exact absurd ⟨rfl, hp.romIsEmpty.trans hrom⟩ hnot
  | asmEnded hnot =>
      cases h with
      | asm h hp =>
          cases hy with
          | asmDone hrom => exact absurd ⟨rfl, hp.romIsEmpty.symm.trans hrom⟩ hnot
          | asmEnded _ => exact ⟨M, .ended h⟩
  | chessDone =>
      cases h with
      | chess h hp =>
          cases hy
          exact ⟨M, .ended h⟩
  | leave hs =>
      cases h with
      | ended h =>
          cases hy with
          | leave ht => exact ⟨M, .loop (h.leave hs ht)⟩
  | finish =>
      cases h with
      | loop h =>
          cases hy
          exact ⟨M, .idle h⟩

/-- Two analyzers after the same run agree on its index. -/
theorem run_agree {E : Env} {docs : Docs} {ls : List Label} (hls : ∀ docs', .start docs' ∉ ls)
    {m₁ m₂ n₁ n₂ : Machine} (hr₁ : Reachable (step E) Machine.init m₁)
    (hr₂ : Reachable (step E) Machine.init m₂)
    (h₁ : run (step E) m₁ (.start docs :: ls) = some n₁)
    (h₂ : run (step E) m₂ (.start docs :: ls) = some n₂) :
    ∃ M, StateAgree M (indexStateOf n₁) (indexStateOf n₂) := by
  obtain ⟨u₁, hu₁, h₁⟩ := run_cons_some h₁
  obtain ⟨u₂, hu₂, h₂⟩ := run_cons_some h₂
  have hstart := start_agree (step_indexStep hr₁ hu₁) (step_indexStep hr₂ hu₂)
  refine (run_rel (R := fun m n => (∃ M, StateAgree M (indexStateOf m) (indexStateOf n)) ∧
    Reachable (step E) Machine.init m ∧ Reachable (step E) Machine.init n)
    (fun l hl m n m' n' hR hm hn => ?_) ⟨⟨_, hstart⟩, hr₁.next hu₁, hr₂.next hu₂⟩ h₁ h₂).1
  obtain ⟨hagree, hrm, hrn⟩ := hR
  exact ⟨step_agree (fun docs' he => hls docs' (he ▸ hl)) hagree (step_indexStep hrm hm)
    (step_indexStep hrn hn), hrm.next hm, hrn.next hn⟩

/-! ## Answers -/

section Answers

variable {M : Nat → Nat → Prop} {s t : Indexer}

theorem referenceAt_eq (ix : Index) (f : Str) (position : Position) :
    ix.referenceAt f position =
      (referencesIn ix).find? fun e => e.file = f ∧ e.range.covers position := by
  unfold Index.referenceAt referencesIn newest
  rw [List.find?_map, List.find?_filter, List.find?_filter]
  congr 2
  funext e
  simp [Index.isReferenceIn, Option.isSome_iff_ne_none, and_left_comm, Bool.and_assoc]

theorem find?_sameReference {l l' : List IndexEntry}
    (h : List.Forall₂ (SameReference M) l l') {p : IndexEntry → Bool}
    (hp : ∀ e e', SameReference M e e' → p e' = p e) :
    Option.Rel (SameReference M) (l.find? p) (l'.find? p) := by
  induction h with
  | nil => exact .none
  | cons hr _ ih =>
      rw [List.find?_cons, List.find?_cons, hp _ _ hr]
      split
      · exact .some hr
      · exact ih

/-- The definition of the reference at a position is the same. -/
theorem Agree.definitionOf (h : Agree M s t) (f : Str) (position : Position) :
    t.index.definitionOf f position = s.index.definitionOf f position := by
  have hfound := find?_sameReference h.references
    (p := fun e => e.file = f ∧ e.range.covers position) fun e e' hr => by
      obtain ⟨i, j, -, -, rfl⟩ := hr
      rfl
  unfold Index.definitionOf
  rw [referenceAt_eq, referenceAt_eq]
  generalize (referencesIn s.index).find? _ = x at hfound
  generalize (referencesIn t.index).find? _ = y at hfound
  cases hfound with
  | none => rfl
  | some hr =>
      obtain ⟨i, j, hm, htarget, rfl⟩ := hr
      obtain ⟨d, hd, hd'⟩ := h.matching.same hm
      simp only [Option.bind_some, htarget, hd, hd']

theorem Agree.definition (h : Agree M s t) (E : Env) (value : Option Json) :
    t.index.answer E .definition value = s.index.answer E .definition value := by
  unfold Index.answer
  simp only [h.definitionOf]

theorem Agree.hover (h : Agree M s t) (E : Env) (value : Option Json) :
    t.index.answer E .hover value = s.index.answer E .hover value := by
  unfold Index.answer
  simp only [h.definitionOf]

/-- Without errors the two logs are one. -/
theorem Agree.answer_of_clean (h : Agree M s t) (hc : Clean s) (E : Env) {query : Query}
    (hquery : query ≠ .workspaceSymbol) (value : Option Json) :
    t.index.answer E query value = s.index.answer E query value := by
  have hlog := (h.clean hc).1
  cases query with
  | definition => exact h.definition E value
  | hover => exact h.hover E value
  | references =>
      unfold Index.answer Index.definitionAt Index.referencesTo
      rw [hlog]
  | documentSymbol =>
      unfold Index.answer Index.definitionsIn
      simp only [hlog, h.mem_files]
  | workspaceSymbol => exact absurd rfl hquery

end Answers

/-- The second list has the symbols of the first one file by file, the files in any order. -/
def FilesPermuted (E : Env) (l l' : List WorkspaceSymbolReply) : Prop :=
  ∃ (files files' : List Str) (symbols : Str → List WorkspaceSymbolReply),
    files.Perm files' ∧ (∀ f, ∀ x ∈ symbols f, x.location.uri = uriFor E f) ∧
      l = files.flatMap symbols ∧ l' = files'.flatMap symbols

/-- Two lists of workspace symbols that differ in the order of the files, or no answer in both. -/
def SameSymbols (E : Env) (r r' : Reply) : Prop :=
  ∃ l l' : Option (List WorkspaceSymbolReply), r = .workspaceSymbols l ∧
    r' = .workspaceSymbols l' ∧ Option.Rel (FilesPermuted E) l l'

theorem Agree.workspaceSymbols {M : Nat → Nat → Prop} {s t : Indexer} (h : Agree M s t)
    (hc : Clean s) (E : Env) (value : Option Json) :
    SameSymbols E (s.index.answer E .workspaceSymbol value)
      (t.index.answer E .workspaceSymbol value) := by
  refine ⟨_, _, rfl, rfl, ?_⟩
  unfold Index.definitionsIn
  rw [(h.clean hc).1]
  cases Json.getStr (Json.get value (ascii "query")) with
  | none => exact .none
  | some query =>
      refine .some ⟨s.index.files, t.index.files, _, h.files, fun f x hx => ?_, rfl, rfl⟩
      obtain ⟨e, he, rfl⟩ := List.mem_map.mp hx
      obtain ⟨⟨e', i⟩, hnewest, rfl⟩ := List.mem_map.mp (List.mem_of_mem_filter he)
      have hfile := of_decide_eq_true (mem_newest_iff.mp hnewest).2
      show uriFor E e'.file = uriFor E f
      rw [hfile.1]

/-! ## Answers and the past -/

/-- The requests that two analyzers answer alike. -/
structure SameAnswers (E : Env) (a b : Analyzer) : Prop where
  definition : ∀ value,
    answer E b.current .definition value = answer E a.current .definition value
  hover : ∀ value, answer E b.current .hover value = answer E a.current .hover value
  clean : (∀ f file, a.files.find? f = some file → file.hasError = false) →
    ∀ query, query ≠ .workspaceSymbol → ∀ value,
      answer E b.current query value = answer E a.current query value
  cleanSymbols : (∀ f file, a.files.find? f = some file → file.hasError = false) → ∀ value,
    SameSymbols E (answer E a.current .workspaceSymbol value)
      (answer E b.current .workspaceSymbol value)

theorem sameAnswers_of_runs {E : Env} {docs : Docs} {ls : List Label}
    (hls : ∀ docs', .start docs' ∉ ls) {m₁ m₂ n₁ n₂ : Machine}
    (hr₁ : Reachable (step E) Machine.init m₁) (hr₂ : Reachable (step E) Machine.init m₂)
    (h₁ : run (step E) m₁ (.start docs :: ls) = some n₁)
    (h₂ : run (step E) m₂ (.start docs :: ls) = some n₂) :
    SameAnswers E n₁.analyzer n₂.analyzer := by
  obtain ⟨M, hagree⟩ := run_agree hls hr₁ hr₂ h₁ h₂
  have hindex₁ := (reachable_indexing (hr₁.run h₁)).current
  have hindex₂ := (reachable_indexing (hr₂.run h₂)).current
  have hclean (h : ∀ f file, n₁.analyzer.files.find? f = some file → file.hasError = false) :
      Clean (indexStateOf n₁).indexer := by
    intro f captured hf
    rw [show (indexStateOf n₁).indexer = indexerOf n₁.analyzer from rfl, captured_find?] at hf
    obtain ⟨file, hfile, rfl⟩ := Option.map_eq_some_iff.mp hf
    exact h f file hfile
  constructor
  case definition =>
    intro value
    rw [hindex₁.answer, hindex₂.answer]
    exact hagree.agree.definition E value
  case hover =>
    intro value
    rw [hindex₁.answer, hindex₂.answer]
    exact hagree.agree.hover E value
  case clean =>
    intro h query hquery value
    rw [hindex₁.answer, hindex₂.answer]
    exact hagree.agree.answer_of_clean (hclean h) E hquery value
  case cleanSymbols =>
    intro h value
    rw [hindex₁.answer, hindex₂.answer]
    exact hagree.agree.workspaceSymbols (hclean h) E value

/-- Go-to-definition and hover come from the last run alone: what was analyzed before, and what a
    file with an error still shows of it, does not matter to them. -/
theorem definitions_forget_history {E : Env} {docs : Docs} {ls : List Label}
    (hls : ∀ docs', .start docs' ∉ ls) {m₁ m₂ n₁ n₂ : Machine}
    (hr₁ : Reachable (step E) Machine.init m₁) (hr₂ : Reachable (step E) Machine.init m₂)
    (h₁ : run (step E) m₁ (.start docs :: ls) = some n₁)
    (h₂ : run (step E) m₂ (.start docs :: ls) = some n₂) (value : Option Json) :
    answer E n₂.analyzer.current .definition value =
        answer E n₁.analyzer.current .definition value ∧
      answer E n₂.analyzer.current .hover value = answer E n₁.analyzer.current .hover value := by
  have hsame := sameAnswers_of_runs hls hr₁ hr₂ h₁ h₂
  exact ⟨hsame.definition value, hsame.hover value⟩

/-! ## A broken run over different pasts -/

def loneDocs : Docs := Table.empty.put (ascii "a") (ascii "~c foo")

/-- A second label of `c`, behind the shared one. -/
def laterLabel : AsmSym where
  type := .label
  name := ascii "bar"
  nameIsGenerated := false
  id := 2
  region := ⟨⟨3, ascii "c"⟩, ⟨⟨1, 6, 5⟩, ⟨1, 10, 9⟩⟩⟩

/-- One run over `a`, which includes `c`. -/
def oneRun (content : String) (events : List Event) : List Label :=
  [.start loneDocs, .enter, .event (.fopen loneDocs ⟨1, ascii "a"⟩ none),
    .event (.fopen loneDocs ⟨3, ascii "c"⟩ (some (ascii content)))] ++ events.map .event ++
    [.asmDone false, .leave, .finish]

def errorInC : Event :=
  .report .error ⟨ascii "bad", ⟨⟨3, ascii "c"⟩, ⟨⟨1, 1, 0⟩, ⟨1, 2, 1⟩⟩⟩, none⟩

def pastRun : List Label :=
  oneRun "@foo @bar" [.putSymbol 256 sharedLabel [], .putSymbol 257 laterLabel []]

def referringEvents : List Event :=
  [.putSymbol 256 sharedLabel [], .putSymbol 256 sharedReference []]

def brokenRun : List Label := oneRun "@foo" (referringEvents ++ [errorInC])

def soundRun : List Label := oneRun "@foo" referringEvents

/-- The symbols that a file lists, by name. -/
def listedNames (c : AnalyzerCtx) (uri : String) : Option (List Str) :=
  (handleListDocSymbols asciiEnv c (request uri 0 0)).map fun l => l.map DocSymbolReply.name

/-- With a label of the past still listed, the reference is found at the same place. -/
theorem definitions_forget_history_broken :
    ∃ m n₁ n₂, run (step asciiEnv) Machine.init pastRun = some m ∧
      run (step asciiEnv) Machine.init brokenRun = some n₁ ∧
      run (step asciiEnv) m brokenRun = some n₂ ∧
      listedNames n₁.analyzer.current "file:///w/c" = some [ascii "foo"] ∧
      listedNames n₂.analyzer.current "file:///w/c" = some [ascii "bar", ascii "foo"] ∧
      answer asciiEnv n₁.analyzer.current .definition (request "file:///w/a" 0 4) =
        .location (some ⟨ascii "file:///w/c", ⟨⟨0, 0⟩, ⟨0, 4⟩⟩⟩) ∧
      answer asciiEnv n₂.analyzer.current .definition (request "file:///w/a" 0 4) =
        answer asciiEnv n₁.analyzer.current .definition (request "file:///w/a" 0 4) := by
  have hfirst : (run (step asciiEnv) Machine.init brokenRun).map (fun n =>
      (listedNames n.analyzer.current "file:///w/c",
        answer asciiEnv n.analyzer.current .definition (request "file:///w/a" 0 4))) =
      some (some [ascii "foo"], .location (some ⟨ascii "file:///w/c", ⟨⟨0, 0⟩, ⟨0, 4⟩⟩⟩)) := by
    decide
  have hsecond : ((run (step asciiEnv) Machine.init pastRun).bind fun m =>
      (run (step asciiEnv) m brokenRun).map fun n =>
        listedNames n.analyzer.current "file:///w/c") =
      some (some [ascii "bar", ascii "foo"]) := by
    decide
  obtain ⟨n₁, hn₁, he⟩ := Option.map_eq_some_iff.mp hfirst
  obtain ⟨m, hm, hsecond⟩ := Option.bind_eq_some_iff.mp hsecond
  obtain ⟨n₂, hn₂, hlisted⟩ := Option.map_eq_some_iff.mp hsecond
  obtain ⟨hl, hanswer⟩ := Prod.mk.injEq _ _ _ _ |>.mp he
  exact ⟨m, n₁, n₂, hm, hn₁, hn₂, hl, hlisted, hanswer,
    (definitions_forget_history (fun _ => by simp) (.refl _) ⟨_, hm⟩ hn₁ hn₂ _).1⟩

/-- When the last run reported no error, nothing is left of earlier ones in any answer; only the
    order of the files may differ in a list of workspace symbols. -/
theorem answers_forget_history {E : Env} {docs : Docs} {ls : List Label}
    (hls : ∀ docs', .start docs' ∉ ls) {m₁ m₂ n₁ n₂ : Machine}
    (hr₁ : Reachable (step E) Machine.init m₁) (hr₂ : Reachable (step E) Machine.init m₂)
    (h₁ : run (step E) m₁ (.start docs :: ls) = some n₁)
    (h₂ : run (step E) m₂ (.start docs :: ls) = some n₂)
    (hclean : ∀ f file, n₁.analyzer.files.find? f = some file → file.hasError = false)
    (value : Option Json) :
    (∀ query, query ≠ .workspaceSymbol →
      answer E n₂.analyzer.current query value = answer E n₁.analyzer.current query value) ∧
    SameSymbols E (answer E n₁.analyzer.current .workspaceSymbol value)
      (answer E n₂.analyzer.current .workspaceSymbol value) := by
  have hsame := sameAnswers_of_runs hls hr₁ hr₂ h₁ h₂
  exact ⟨fun query hquery => hsame.clean hclean query hquery value,
    hsame.cleanSymbols hclean value⟩

theorem answers_forget_history_sound :
    ∃ m n₁ n₂, run (step asciiEnv) Machine.init pastRun = some m ∧
      run (step asciiEnv) Machine.init soundRun = some n₁ ∧
      run (step asciiEnv) m soundRun = some n₂ ∧
      answer asciiEnv n₁.analyzer.current .references (request "file:///w/c" 0 0) =
        .locations (some [⟨ascii "file:///w/a", ⟨⟨0, 3⟩, ⟨0, 6⟩⟩⟩]) ∧
      answer asciiEnv n₂.analyzer.current .references (request "file:///w/c" 0 0) =
        answer asciiEnv n₁.analyzer.current .references (request "file:///w/c" 0 0) := by
  have hfirst : (run (step asciiEnv) Machine.init soundRun).map (fun n =>
      (n.analyzer.files.entries.map fun e => e.2.hasError,
        answer asciiEnv n.analyzer.current .references (request "file:///w/c" 0 0))) =
      some ([false, false], .locations (some [⟨ascii "file:///w/a", ⟨⟨0, 3⟩, ⟨0, 6⟩⟩⟩])) := by
    decide
  have hsecond : ((run (step asciiEnv) Machine.init pastRun).bind fun m =>
      run (step asciiEnv) m soundRun).isSome = true := by
    decide
  obtain ⟨n₁, hn₁, he⟩ := Option.map_eq_some_iff.mp hfirst
  obtain ⟨n₂, hsecond⟩ := Option.isSome_iff_exists.mp hsecond
  obtain ⟨m, hm, hn₂⟩ := Option.bind_eq_some_iff.mp hsecond
  obtain ⟨herrors, hanswer⟩ := Prod.mk.injEq _ _ _ _ |>.mp he
  have hclean : ∀ f file, n₁.analyzer.files.find? f = some file → file.hasError = false := by
    intro f file hf
    have hmem := List.mem_map_of_mem (f := fun e : Str × File => e.2.hasError)
      ((n₁.analyzer.files.mem_entries_iff f file).mpr hf)
    rw [herrors] at hmem
    simpa using hmem
  exact ⟨m, n₁, n₂, hm, hn₁, hn₂, hanswer,
    (answers_forget_history (fun _ => by simp) (.refl _) ⟨_, hm⟩ hn₁ hn₂ hclean _).1 .references
      (by decide)⟩

end BuxnLs.Analysis
