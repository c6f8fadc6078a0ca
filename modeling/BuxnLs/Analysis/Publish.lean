/-
  The publishing loop of `buxn_ls_analyze_workspace` on diagnostics sorted by URI. `Grouped` says
  what a list of notifications owes to a list of diagnostics; `publishLoop_spec` proves it for
  the notifications of the loop while sends succeed, and counts what is lost when one fails.
-/
import BuxnLs.Analysis.Invariant
import BuxnLs.Model.AsciiEnv
import BuxnLs.Model.Publish
import Mathlib.Data.List.Dedup
import Mathlib.Data.List.Perm.Subperm

namespace BuxnLs.Analysis

open BuxnLs.Lib BuxnLs.Model

/-- The string behind the `uri` pointer of a diagnostic. -/
def uriIn (c : AnalyzerCtx) (d : Diagnostic) : Str :=
  (d.location.uri.bind (c.srcs[·]?)).elim [] SrcNode.uri

/-- The `uri` pointer is that of a node in `sources`. -/
def Known (c : AnalyzerCtx) (d : Diagnostic) : Prop :=
  ∃ filename ∈ c.sources.keys, d.location.uri = c.sources.find? filename

instance (c : AnalyzerCtx) (d : Diagnostic) : Decidable (Known c d) :=
  inferInstanceAs (Decidable (∃ filename ∈ c.sources.keys, _))

theorem Known.exists_id {c : AnalyzerCtx} {d : Diagnostic} (h : Known c d) :
    ∃ filename id, d.location.uri = some id ∧ c.sources.find? filename = some id := by
  obtain ⟨f, hf, hu⟩ := h
  obtain ⟨id, hid⟩ := Option.isSome_iff_exists.mp ((c.sources.mem_keys_iff f).mp hf)
  exact ⟨f, id, hu.trans hid, hid⟩

/-- The entries of `ds` under one URI, in order. -/
def entriesUnder (c : AnalyzerCtx) (ds : List Diagnostic) (uri : Str) : List DiagnosticEntry :=
  (ds.filter fun d => uriIn c d = uri).map (entryOf uri)

theorem entriesUnder_eq_nil {c : AnalyzerCtx} {ds : List Diagnostic} {u : Str}
    (h : ¬ ∃ d ∈ ds, uriIn c d = u) : entriesUnder c ds u = [] := by
  have hnone : ds.filter (fun d => uriIn c d = u) = [] :=
    List.filter_eq_nil_iff.mpr fun d hd => by simpa using fun he => h ⟨d, hd, he⟩
  unfold entriesUnder
  rw [hnone, List.map_nil]

/-- The entries of some notifications, each with the URI it is published under. -/
def tagged (ms : List PublishDiagnostics) : List (Str × DiagnosticEntry) :=
  ms.flatMap fun m => m.diagnostics.map fun e => (m.uri, e)

theorem tagged_append (ms ms' : List PublishDiagnostics) :
    tagged (ms ++ ms') = tagged ms ++ tagged ms' := List.flatMap_append

theorem tagged_of_empty {ms : List PublishDiagnostics} (h : ∀ m ∈ ms, m.diagnostics = []) :
    tagged ms = [] :=
  List.flatMap_eq_nil_iff.mpr fun m hm => by rw [h m hm, List.map_nil]

/-- One notification for each URI of `ds`, with all entries of that URI. -/
structure Grouped (c : AnalyzerCtx) (ds : List Diagnostic) (ms : List PublishDiagnostics) :
    Prop where
  nodup : (ms.map PublishDiagnostics.uri).Nodup
  entries : ∀ m ∈ ms, m.diagnostics = entriesUnder c ds m.uri
  covers : ∀ u, u ∈ ms.map PublishDiagnostics.uri ↔ ∃ d ∈ ds, uriIn c d = u
  tags : tagged ms = ds.map fun d => (uriIn c d, entryOf (uriIn c d) d)

theorem grouped_nil (c : AnalyzerCtx) : Grouped c [] [] where
  nodup := List.nodup_nil
  entries := fun m h => by cases h
  covers := fun u => by simp
  tags := rfl

theorem entriesUnder_append (c : AnalyzerCtx) (ds : List Diagnostic) (d : Diagnostic) (u : Str) :
    entriesUnder c (ds ++ [d]) u =
      entriesUnder c ds u ++ (if uriIn c d = u then [entryOf u d] else []) := by
  unfold entriesUnder
  rw [List.filter_append, List.map_append]
  by_cases h : uriIn c d = u <;> simp [h]

theorem covers_append {c : AnalyzerCtx} {ds : List Diagnostic} {d : Diagnostic} {u : Str} :
    (∃ e ∈ ds ++ [d], uriIn c e = u) ↔ (∃ e ∈ ds, uriIn c e = u) ∨ uriIn c d = u := by
  simp [List.mem_append, or_and_right, exists_or]

/-- A diagnostic of the last group. -/
theorem Grouped.same {c : AnalyzerCtx} {ds : List Diagnostic} {pre : List PublishDiagnostics}
    {m : PublishDiagnostics} {d : Diagnostic} (h : Grouped c ds (pre ++ [m]))
    (hd : uriIn c d = m.uri) :
    Grouped c (ds ++ [d])
      (pre ++ [{ m with diagnostics := m.diagnostics ++ [entryOf m.uri d] }]) where
  nodup := by simpa using h.nodup
  entries := by
    intro m' hm'
    rcases List.mem_append.mp hm' with hm' | hm'
    · have hne : uriIn c d ≠ m'.uri := by
        intro he
        have hnd := h.nodup
        rw [List.map_append, List.nodup_append] at hnd
        exact hnd.2.2 m'.uri (List.mem_map_of_mem hm') m.uri (by simp) (he.symm.trans hd)
      rw [entriesUnder_append, if_neg hne, List.append_nil]
      exact h.entries m' (List.mem_append_left _ hm')
    · obtain rfl := List.mem_singleton.mp hm'
      rw [entriesUnder_append, if_pos hd, ← h.entries m (by simp)]
  covers := by
    intro u
    have hmap : (pre ++ [{ m with diagnostics := m.diagnostics ++ [entryOf m.uri d] }]).map
        PublishDiagnostics.uri = (pre ++ [m]).map PublishDiagnostics.uri := by simp
    rw [hmap, h.covers, covers_append]
    refine ⟨Or.inl, fun hc => hc.elim id fun he => ?_⟩
    exact (h.covers u).mp (by rw [← he, hd]; simp)
  tags := by
    have ht := h.tags
    rw [tagged_append] at ht
    rw [tagged_append, List.map_append, ← ht, List.append_assoc]
    simp [tagged, hd]

/-- The first diagnostic of a new group. -/
theorem Grouped.next {c : AnalyzerCtx} {ds : List Diagnostic} {ms : List PublishDiagnostics}
    {d : Diagnostic} (h : Grouped c ds ms) (hd : ∀ e ∈ ds, uriIn c e ≠ uriIn c d) :
    Grouped c (ds ++ [d]) (ms ++ [⟨uriIn c d, [entryOf (uriIn c d) d]⟩]) where
  nodup := by
    rw [List.map_append, List.nodup_append]
    refine ⟨h.nodup, by simp, fun u hu v hv he => ?_⟩
    obtain ⟨e, hm, hu⟩ := (h.covers u).mp hu
    simp only [List.map_cons, List.map_nil, List.mem_singleton] at hv
    exact hd e hm (by rw [hu, he, hv])
  entries := by
    intro m hm
    rcases List.mem_append.mp hm with hm | hm
    · have hne : uriIn c d ≠ m.uri := by
        intro he
        obtain ⟨e, hmem, hu⟩ := (h.covers m.uri).mp (List.mem_map_of_mem hm)
        exact hd e hmem (hu.trans he.symm)
      rw [entriesUnder_append, if_neg hne, List.append_nil]
      exact h.entries m hm
    · obtain rfl := List.mem_singleton.mp hm
      have hnone : entriesUnder c ds (uriIn c d) = [] := by
        unfold entriesUnder
        rw [List.filter_eq_nil_iff.mpr fun e he => by simpa using hd e he, List.map_nil]
      rw [entriesUnder_append, if_pos rfl, hnone, List.nil_append]
  covers := by
    intro u
    rw [List.map_append, List.mem_append, h.covers, covers_append]
    simp [eq_comm]
  tags := by
    rw [tagged_append, List.map_append, h.tags]
    simp [tagged]

/-- There are as many notifications as distinct URIs. -/
theorem Grouped.count {c : AnalyzerCtx} {ds : List Diagnostic} {ms : List PublishDiagnostics}
    (h : Grouped c ds ms) : ms.length = (ds.map (uriIn c)).dedup.length := by
  have hperm : (ms.map PublishDiagnostics.uri).Perm (ds.map (uriIn c)).dedup := by
    rw [List.perm_ext_iff_of_nodup h.nodup (List.nodup_dedup _)]
    intro u
    rw [h.covers, List.mem_dedup, List.mem_map]
  simpa using hperm.length_eq

/-! ## The loop -/

/-- The loop after the diagnostics `done`: `new` is what it has begun to publish. -/
structure LoopInv (c : AnalyzerCtx) (s₀ : Server) (done : List Diagnostic)
    (new : List PublishDiagnostics) (last : Option SrcId) (msg : Option PublishDiagnostics)
    (s : Server) : Prop where
  grouped : Grouped c done new
  split : ∃ pre, new = pre ++ msg.toList ∧ s.sent = s₀.sent ++ pre ∧
    s.sends = s₀.sends + pre.length
  start : done = [] → last = none ∧ msg = none
  building : ∀ d, done.getLast? = some d →
    last = d.location.uri ∧ ∃ m, msg = some m ∧ m.uri = uriIn c d
  current : ∀ u, u ∈ s.currentlyDiagnosed.keys ↔
    u ∈ s₀.currentlyDiagnosed.keys ∨ ∃ d ∈ done, uriIn c d = u
  previous : ∀ u, u ∈ s.previouslyDiagnosed.keys ↔
    u ∈ s₀.previouslyDiagnosed.keys ∧ ¬ ∃ d ∈ done, uriIn c d = u
  machine : s.machine = s₀.machine

theorem loopInv_start (c : AnalyzerCtx) (s : Server) : LoopInv c s [] [] none none s where
  grouped := grouped_nil c
  split := ⟨[], rfl, by simp, by simp⟩
  start := fun _ => ⟨rfl, rfl⟩
  building := fun d h => by cases h
  current := fun u => by simp
  previous := fun u => by simp
  machine := rfl

/-- The moved keys, in the terms of `LoopInv`. -/
theorem LoopInv.move {c : AnalyzerCtx} {s₀ s : Server} {done : List Diagnostic}
    {new : List PublishDiagnostics} {last : Option SrcId} {msg : Option PublishDiagnostics}
    {d : Diagnostic} (h : LoopInv c s₀ done new last msg s) :
    (∀ u, u ∈ (s.moveUri (uriIn c d)).currentlyDiagnosed.keys ↔
      u ∈ s₀.currentlyDiagnosed.keys ∨ ∃ e ∈ done ++ [d], uriIn c e = u) ∧
    (∀ u, u ∈ (s.moveUri (uriIn c d)).previouslyDiagnosed.keys ↔
      u ∈ s₀.previouslyDiagnosed.keys ∧ ¬ ∃ e ∈ done ++ [d], uriIn c e = u) := by
  refine ⟨fun u => ?_, fun u => ?_⟩
  · show u ∈ (s.currentlyDiagnosed.put _ ()).keys ↔ _
    rw [Table.mem_keys_put, h.current, covers_append, or_assoc, eq_comm (a := u)]
  · show u ∈ (s.previouslyDiagnosed.remove _).keys ↔ _
    rw [Table.mem_keys_remove, h.previous, covers_append, not_or, and_assoc, ne_comm]

/-- A new group, the group before it being delivered. -/
theorem LoopInv.next {c : AnalyzerCtx} {s₀ s s' : Server} {done : List Diagnostic}
    {new : List PublishDiagnostics} {last : Option SrcId} {msg : Option PublishDiagnostics}
    {d : Diagnostic} (h : LoopInv c s₀ done new last msg s)
    (hd : ∀ e ∈ done, uriIn c e ≠ uriIn c d)
    (hs : s' = { s.moveUri (uriIn c d) with
      sent := s.sent ++ msg.toList, sends := s.sends + msg.toList.length }) :
    LoopInv c s₀ (done ++ [d]) (new ++ [⟨uriIn c d, [entryOf (uriIn c d) d]⟩]) d.location.uri
      (some ⟨uriIn c d, [entryOf (uriIn c d) d]⟩) s' := by
  obtain ⟨pre, hnew, hsent, hsends⟩ := h.split
  obtain ⟨hcur, hprev⟩ := h.move (d := d)
  subst hs
  refine ⟨h.grouped.next hd, ⟨new, rfl, ?_, ?_⟩, fun he => ?_, fun e he => ?_, hcur, hprev,
    h.machine⟩
  · rw [hnew, hsent, List.append_assoc]
  · rw [hnew, hsends, List.length_append, Nat.add_assoc]
  · simp at he
  · rw [List.getLast?_concat] at he
    cases he
    exact ⟨rfl, _, rfl, rfl⟩

/-- Another diagnostic of the group being built. -/
theorem LoopInv.same {c : AnalyzerCtx} {s₀ s : Server} {done : List Diagnostic}
    {new : List PublishDiagnostics} {last : Option SrcId} {msg : Option PublishDiagnostics}
    {d e : Diagnostic} (h : LoopInv c s₀ done new last msg s) (he : done.getLast? = some e)
    (hd : d.location.uri = last) :
    ∃ new', LoopInv c s₀ (done ++ [d]) new' last
      (msg.map fun m => { m with diagnostics := m.diagnostics ++ [entryOf m.uri d] }) s := by
  obtain ⟨hlast, m, rfl, hm⟩ := h.building e he
  obtain ⟨pre, rfl, hsent, hsends⟩ := h.split
  have hu : uriIn c d = uriIn c e := by unfold uriIn; rw [hd, hlast]
  have hmem : ∀ u, (∃ x ∈ done ++ [d], uriIn c x = u) ↔ ∃ x ∈ done, uriIn c x = u := by
    intro u
    rw [covers_append]
    exact ⟨fun hc => hc.elim id fun hc => ⟨e, List.mem_of_getLast? he, hu ▸ hc⟩, Or.inl⟩
  refine ⟨_, h.grouped.same (hu.trans hm.symm), ⟨pre, rfl, hsent, hsends⟩, fun hc => ?_,
    fun x hx => ?_, fun u => ?_, fun u => ?_, h.machine⟩
  · simp at hc
  · rw [List.getLast?_concat] at hx
    cases hx
    exact ⟨hd.symm, _, rfl, hm.trans hu.symm⟩
  · rw [hmem, h.current]
  · rw [hmem, h.previous]

/-- An array that was begun has an entry, so what was delivered before it is less than `done`. -/
theorem Grouped.total_lt {c : AnalyzerCtx} {ds : List Diagnostic} {pre : List PublishDiagnostics}
    {m : PublishDiagnostics} (h : Grouped c ds (pre ++ [m])) :
    (tagged pre).length < ds.length := by
  have hm : m ∈ pre ++ [m] := by simp
  obtain ⟨d, hd, hu⟩ := (h.covers m.uri).mp (List.mem_map_of_mem hm)
  have hne : 0 < m.diagnostics.length := by
    rw [h.entries m hm, entriesUnder, List.length_map]
    exact List.length_pos_of_mem (List.mem_filter.mpr ⟨hd, by simpa using hu⟩)
  have ht := congrArg List.length h.tags
  rw [tagged_append, List.length_append, List.length_map] at ht
  have hlast : (tagged [m]).length = m.diagnostics.length := by simp [tagged]
  omega

/-- What the loop leaves: everything when the sends it tries succeed, less when one fails. -/
inductive LoopEnd (ok : Nat → Bool) (c : AnalyzerCtx) (s₀ : Server) (ds : List Diagnostic)
    (msg : Option PublishDiagnostics) (s : Server) : Prop where
  | complete {new last} : LoopInv c s₀ ds new last msg s →
      (∀ k, s₀.sends ≤ k → k < s.sends → ok k = true) → LoopEnd ok c s₀ ds msg s
  | broken {k pre} : msg = none → ok k = false → s₀.sends ≤ k →
      k < s₀.sends + (ds.map (uriIn c)).dedup.length → s.sent = s₀.sent ++ pre →
      (tagged pre).length < ds.length → LoopEnd ok c s₀ ds msg s

/-- In a sorted list a new pointer means a URI that has not come before. -/
theorem uri_notMem_done {E : Env} {c : AnalyzerCtx} (hw : CtxWF E c) {done : List Diagnostic}
    {d e : Diagnostic} (hk : ∀ x ∈ done ++ [d], Known c x) (he : done.getLast? = some e)
    (hs : (done ++ [d]).Pairwise fun a b => uriIn c a ≤ uriIn c b)
    (hne : d.location.uri ≠ e.location.uri) : ∀ x ∈ done, uriIn c x ≠ uriIn c d := by
  intro x hx heq
  obtain ⟨pre, rfl⟩ : ∃ pre, done = pre ++ [e] := by
    obtain ⟨pre, hpre⟩ := List.getLast?_eq_some_iff.mp he
    exact ⟨pre, hpre⟩
  obtain ⟨hdone, -, hd⟩ := List.pairwise_append.mp hs
  -- the last URI lies between that of `x` and that of `d`
  have hle : uriIn c e ≤ uriIn c d := hd e (by simp) d (by simp)
  have hge : uriIn c d ≤ uriIn c e := by
    rcases List.mem_append.mp hx with hx | hx
    · rw [← heq]
      exact (List.pairwise_append.mp hdone).2.2 x hx e (by simp)
    · rw [← heq, List.mem_singleton.mp hx]
      exact List.le_refl _
  have heq' : uriIn c e = uriIn c d := List.le_antisymm hle hge
  obtain ⟨f, i, hi, hfi⟩ := (hk d (by simp)).exists_id
  obtain ⟨g, j, hj, hgj⟩ := (hk e (by simp)).exists_id
  obtain ⟨s, hs, -⟩ := hw.sources f i hfi
  obtain ⟨t, ht, -⟩ := hw.sources g j hgj
  refine hne ?_
  have hst : t.uri = s.uri := by
    have h : uriIn c e = uriIn c d := heq'
    unfold uriIn at h
    rw [hi, hj, Option.bind_some, Option.bind_some, hs, ht] at h
    exact h
  rw [hi, hj, hw.uri_inj ht hs hst]

theorem length_dedup_le {α β : Type} [DecidableEq β] (f : α → β) {xs ys : List α}
    (h : xs ⊆ ys) : (xs.map f).dedup.length ≤ (ys.map f).dedup.length := by
  refine (List.subperm_of_subset (List.nodup_dedup _) fun u hu => ?_).length_le
  rw [List.mem_dedup] at hu ⊢
  exact List.map_subset f h hu

theorem publishLoop_spec {E : Env} (ok : Nat → Bool) {c : AnalyzerCtx} (hw : CtxWF E c)
    {s₀ : Server} (ds : List Diagnostic) {done : List Diagnostic} {new : List PublishDiagnostics}
    {last : Option SrcId} {msg : Option PublishDiagnostics} {s : Server}
    (h : LoopInv c s₀ done new last msg s)
    (hok : ∀ k, s₀.sends ≤ k → k < s.sends → ok k = true)
    (hk : ∀ x ∈ done ++ ds, Known c x)
    (hs : (done ++ ds).Pairwise fun a b => uriIn c a ≤ uriIn c b) :
    ∃ s' msg', publishLoop ok c ds last msg s = some (s', msg') ∧
      LoopEnd ok c s₀ (done ++ ds) msg' s' := by
  induction ds generalizing done new last msg s with
  | nil =>
      rw [List.append_nil]
      exact ⟨s, msg, rfl, .complete h hok⟩
  | cons d ds ih =>
      have hassoc : done ++ d :: ds = (done ++ [d]) ++ ds := by simp
      rw [hassoc] at hk hs ⊢
      have hk' : ∀ x ∈ done ++ [d], Known c x := fun x hx => hk x (List.mem_append_left _ hx)
      have hs' := (List.pairwise_append.mp hs).1
      obtain ⟨f, id, hid, hfid⟩ := (hk' d (by simp)).exists_id
      obtain ⟨src, hsrc, -⟩ := hw.sources f id hfid
      have huri : uriIn c d = src.uri := by
        unfold uriIn
        rw [hid, Option.bind_some, hsrc]
        rfl
      by_cases hne : d.location.uri ≠ last
      · -- a new file: the array before it is delivered first
        have hnew : ∀ x ∈ done, uriIn c x ≠ uriIn c d := by
          cases hlast : done.getLast? with
          | none =>
              rw [List.getLast?_eq_none_iff.mp hlast]
              exact fun x hx => by cases hx
          | some e =>
              exact uri_notMem_done hw hk' hlast hs' ((h.building e hlast).1 ▸ hne)
        unfold publishLoop
        rw [if_pos hne, hid, Option.bind_some, hsrc]
        dsimp only
        cases msg with
        | none =>
            have hnext := h.next (d := d) hnew (rfl : { s.moveUri (uriIn c d) with
              sent := s.sent ++ [], sends := s.sends + 0 } = _)
            rw [List.append_nil, huri] at hnext
            rw [← hid]
            exact ih hnext hok hk hs
        | some m =>
            dsimp only [Server.endMsg]
            cases hsend : ok (s.moveUri src.uri).sends with
            | true =>
                have hnext := h.next hnew rfl
                rw [huri] at hnext
                rw [← hid]
                refine ih hnext (fun k hk₁ hk₂ => ?_) hk hs
                rcases Nat.lt_succ_iff_lt_or_eq.mp hk₂ with hlt | rfl
                · exact hok k hk₁ hlt
                · exact hsend
            | false =>
                obtain ⟨pre, rfl, hsent, hsends⟩ := h.split
                have hlt := h.grouped.total_lt
                have hcount := h.grouped.count
                refine ⟨_, _, rfl, .broken rfl hsend ?_ ?_ hsent ?_⟩
                · show s₀.sends ≤ s.sends
                  omega
                · show s.sends < _
                  have hsub := length_dedup_le (uriIn c) (List.subset_append_left done ([d] ++ ds))
                  rw [← List.append_assoc] at hsub
                  simp only [List.length_append, Option.toList_some, List.length_singleton]
                    at hcount
                  omega
                · simp only [List.length_append, List.length_singleton]
                  omega
      · -- the same file: its array grows
        have hlast : d.location.uri = last := not_not.mp hne
        cases hget : done.getLast? with
        | none =>
            obtain ⟨hl, -⟩ := h.start (List.getLast?_eq_none_iff.mp hget)
            rw [hl, hid] at hlast
            cases hlast
        | some e =>
            obtain ⟨new', hsame⟩ := h.same hget hlast
            unfold publishLoop
            rw [if_neg hne]
            exact ih hsame hok hk hs

/-! ## The whole of publishing -/

/-- The clearing loop adds empty arrays only, for all its keys when every send succeeds. -/
theorem clearUris_spec (ok : Nat → Bool) (keys : List Str) (s : Server) :
    ∃ cleared sends, keys.foldl (clearUri ok) s =
        { s with sent := s.sent ++ cleared, sends := sends } ∧
      (∀ m ∈ cleared, m.diagnostics = []) ∧
      ((∀ k, ok k = true) → cleared = keys.map fun u => ⟨u, []⟩) := by
  induction keys generalizing s with
  | nil => exact ⟨[], s.sends, by simp, fun m h => absurd h List.not_mem_nil, fun _ => rfl⟩
  | cons u keys ih =>
      obtain ⟨cleared, sends, he, hempty, hall⟩ := ih (clearUri ok s u)
      cases hok : ok s.sends with
      | true =>
          refine ⟨⟨u, []⟩ :: cleared, sends, ?_, fun m hm => ?_, fun h => ?_⟩
          · rw [List.foldl_cons, he]
            simp [clearUri, Server.endMsg, hok]
          · rcases List.mem_cons.mp hm with rfl | hm
            · rfl
            · exact hempty m hm
          · rw [hall h, List.map_cons]
      | false =>
          refine ⟨cleared, sends, ?_, hempty, fun h => ?_⟩
          · rw [List.foldl_cons, he]
            simp [clearUri, Server.endMsg, hok]
          · rw [h] at hok
            cases hok

/-- The diagnostics of the run as `publish` finds them: known and sorted. -/
structure Publishable (E : Env) (s : Server) : Prop where
  wf : CtxWF E s.machine.analyzer.current
  known : ∀ d ∈ s.machine.analyzer.diagnostics, Known s.machine.analyzer.current d
  sorted : s.machine.analyzer.diagnostics.Pairwise fun a b =>
    uriIn s.machine.analyzer.current a ≤ uriIn s.machine.analyzer.current b

/-- The number of arrays to publish. -/
def arrayCount (a : Analyzer) : Nat := (a.diagnostics.map (uriIn a.current)).dedup.length

/-- What a run of publishing does when the sends of all its arrays succeed. -/
structure Published (s s' : Server) (new cleared : List PublishDiagnostics) : Prop where
  grouped : Grouped s.machine.analyzer.current s.machine.analyzer.diagnostics new
  sent : s'.sent = s.sent ++ (new ++ cleared)
  empty : ∀ m ∈ cleared, m.diagnostics = []
  current : s'.currentlyDiagnosed = .empty
  previous : ∀ u, u ∈ s'.previouslyDiagnosed.keys ↔ u ∈ s.currentlyDiagnosed.keys ∨
    ∃ d ∈ s.machine.analyzer.diagnostics, uriIn s.machine.analyzer.current d = u
  machine : s'.machine = s.machine

/-- The outcomes of `publish`: all arrays are delivered, or a send fails and entries are lost. -/
theorem publish_cases {E : Env} (ok : Nat → Bool) {s : Server} (hp : Publishable E s) :
    ∃ s', publish ok s = some s' ∧
      (((∀ k < arrayCount s.machine.analyzer, ok (s.sends + k) = true) ∧
        ∃ new cleared, Published s s' new cleared ∧
          ((∀ k, ok k = true) → ∃ left : StrSet, cleared = left.keys.map (fun u => ⟨u, []⟩) ∧
            ∀ u, u ∈ left.keys ↔ u ∈ s.previouslyDiagnosed.keys ∧
              ¬ ∃ d ∈ s.machine.analyzer.diagnostics,
                uriIn s.machine.analyzer.current d = u)) ∨
      ((∃ k < arrayCount s.machine.analyzer, ok (s.sends + k) = false) ∧
        ∃ rest, s'.sent = s.sent ++ rest ∧
          (tagged rest).length < s.machine.analyzer.diagnostics.length)) := by
  obtain ⟨t, msg, hloop, hend⟩ := publishLoop_spec ok hp.wf
    s.machine.analyzer.diagnostics (loopInv_start _ s) (fun k h₁ h₂ => by omega) hp.known
    hp.sorted
  rw [List.nil_append] at hend
  unfold publish
  rw [hloop, Option.map_some]
  refine ⟨_, rfl, ?_⟩
  dsimp only
  cases hend with
  | broken hmsg hk hle hlt hsent htotal =>
      rename_i k pre
      subst hmsg
      obtain ⟨cleared, sends, he, hempty, -⟩ :=
        clearUris_spec ok t.previouslyDiagnosed.keys t
      refine Or.inr ⟨⟨k - s.sends, by unfold arrayCount; omega, ?_⟩, pre ++ cleared, ?_, ?_⟩
      · rw [← hk]
        congr 1
        omega
      · rw [Option.elim_none, he]
        simp only [hsent, List.append_assoc]
      · rw [tagged_append, tagged_of_empty hempty, List.append_nil]
        exact htotal
  | complete h hok =>
      rename_i new last
      obtain ⟨pre, hnew, hsent, hsends⟩ := h.split
      have hcount := h.grouped.count
      cases msg with
      | none =>
          obtain ⟨cleared, sends, he, hempty, hall⟩ :=
            clearUris_spec ok t.previouslyDiagnosed.keys t
          rw [Option.elim_none, he]
          rw [Option.toList_none, List.append_nil] at hnew
          refine Or.inl ⟨fun k hk => hok _ (by omega) ?_, new, cleared,
            ⟨h.grouped, ?_, hempty, rfl, h.current, h.machine⟩,
            fun hokall => ⟨t.previouslyDiagnosed, hall hokall, h.previous⟩⟩
          · rw [hsends, ← hnew, hcount]
            unfold arrayCount at hk
            omega
          · rw [hsent, hnew, List.append_assoc]
      | some m =>
          obtain ⟨cleared, sends, he, hempty, hall⟩ :=
            clearUris_spec ok t.previouslyDiagnosed.keys (t.endMsg ok m).1
          rw [Option.elim_some, show (t.endMsg ok m).1.previouslyDiagnosed =
            t.previouslyDiagnosed from rfl, he]
          rw [Option.toList_some] at hnew
          rw [hnew, List.length_append, List.length_singleton] at hcount
          cases hsend : ok t.sends with
          | true =>
              refine Or.inl ⟨fun k hk => ?_, new, cleared,
                ⟨h.grouped, ?_, hempty, rfl, h.current, h.machine⟩,
                fun hokall => ⟨t.previouslyDiagnosed, hall hokall, h.previous⟩⟩
              · unfold arrayCount at hk
                rcases Nat.lt_or_ge (s.sends + k) t.sends with hlt | hge
                · exact hok _ (by omega) hlt
                · rw [show s.sends + k = t.sends by omega, hsend]
              · simp only [Server.endMsg, hsend, if_true, hsent, hnew, List.append_assoc]
          | false =>
              have hlt := (hnew ▸ h.grouped).total_lt
              refine Or.inr ⟨⟨pre.length, by unfold arrayCount; omega, ?_⟩, pre ++ cleared, ?_, ?_⟩
              · rw [← hsends, hsend]
              · simp only [Server.endMsg, hsend, Bool.false_eq_true, if_false, hsent,
                  List.append_assoc]
              · rw [tagged_append, tagged_of_empty hempty, List.append_nil]
                exact hlt

/-! ## The client's view -/

theorem clientView_append_of_notMem {xs ms : List PublishDiagnostics} {u : Str}
    (h : u ∉ ms.map PublishDiagnostics.uri) : clientView (xs ++ ms) u = clientView xs u := by
  induction ms generalizing xs with
  | nil => rw [List.append_nil]
  | cons m ms ih =>
      rw [List.map_cons, List.mem_cons, not_or] at h
      rw [List.append_cons, ih h.2]
      simp [clientView, Ne.symm h.1]

theorem clientView_append_of_mem {xs ms : List PublishDiagnostics} {m : PublishDiagnostics}
    (hnd : (ms.map PublishDiagnostics.uri).Nodup) (hm : m ∈ ms) :
    clientView (xs ++ ms) m.uri = m.diagnostics := by
  induction ms generalizing xs with
  | nil => cases hm
  | cons n ms ih =>
      rw [List.map_cons, List.nodup_cons] at hnd
      rw [List.append_cons]
      rcases List.mem_cons.mp hm with rfl | hm
      · rw [clientView_append_of_notMem hnd.1]
        simp [clientView]
      · exact ih hnd.2 hm

/-- When the sends succeed and the files that show diagnostics were diagnosed before, each file
    shows its own diagnostics afterwards. -/
theorem Published.clientView {s t : Server} {new cleared : List PublishDiagnostics}
    (hp : Published s t new cleared) {left : StrSet}
    (hcleared : cleared = left.keys.map fun u => ⟨u, []⟩)
    (hmem : ∀ u, u ∈ left.keys ↔ u ∈ s.previouslyDiagnosed.keys ∧
      ¬ ∃ d ∈ s.machine.analyzer.diagnostics, uriIn s.machine.analyzer.current d = u)
    (hshown : ∀ u, Model.clientView s.sent u ≠ [] → u ∈ s.previouslyDiagnosed.keys) :
    ((new ++ cleared).map PublishDiagnostics.uri).Nodup ∧
      ∀ u, Model.clientView t.sent u =
        entriesUnder s.machine.analyzer.current s.machine.analyzer.diagnostics u := by
  have huris : (new ++ cleared).map PublishDiagnostics.uri =
      new.map PublishDiagnostics.uri ++ left.keys := by
    rw [List.map_append, hcleared, List.map_map]
    congr 1
    exact List.map_id _
  have hnodup : ((new ++ cleared).map PublishDiagnostics.uri).Nodup := by
    rw [huris, List.nodup_append]
    refine ⟨hp.grouped.nodup, left.nodup, fun u hu v hv he => ?_⟩
    exact ((hmem v).mp hv).2 (he ▸ (hp.grouped.covers u).mp hu)
  refine ⟨hnodup, fun u => ?_⟩
  by_cases hu : u ∈ (new ++ cleared).map PublishDiagnostics.uri
  · obtain ⟨msg, hmsg, rfl⟩ := List.mem_map.mp hu
    rw [hp.sent, clientView_append_of_mem hnodup hmsg]
    rcases List.mem_append.mp hmsg with hmsg | hmsg
    · exact hp.grouped.entries msg hmsg
    · -- a cleared file has no diagnostic in this run
      have hleftmem : msg.uri ∈ left.keys := by
        rw [hcleared] at hmsg
        obtain ⟨v, hv, rfl⟩ := List.mem_map.mp hmsg
        exact hv
      rw [hp.empty msg hmsg, entriesUnder_eq_nil ((hmem msg.uri).mp hleftmem).2]
  · rw [hp.sent, clientView_append_of_notMem hu]
    rw [huris, List.mem_append, not_or] at hu
    have hno : ¬ ∃ d ∈ s.machine.analyzer.diagnostics,
        uriIn s.machine.analyzer.current d = u := fun hd => hu.1 ((hp.grouped.covers u).mpr hd)
    have hempty : Model.clientView s.sent u = [] := by
      by_contra hne
      exact hu.2 ((hmem u).mpr ⟨hshown u hne, hno⟩)
    rw [hempty, entriesUnder_eq_nil hno]

/-- Between runs no file is left in the current set, and the files that show diagnostics are in
    the previous one. -/
structure ServerOK (E : Env) (s : Server) : Prop where
  machine : MachineOK E s.machine
  current : s.currentlyDiagnosed = .empty
  shown : ∀ u, clientView s.sent u ≠ [] → u ∈ s.previouslyDiagnosed.keys

theorem serverOK_init (E : Env) : ServerOK E Server.init where
  machine := machineOK_init E
  current := rfl
  shown := fun _ h => absurd rfl h

theorem serverStep_cases {E : Env} {ok : Nat → Bool} {s s' : Server} {l : Label}
    (h : serverStep E ok s l = some s') :
    ∃ m, step E s.machine l = some m ∧
      ((l = .finish ∧ publish ok { s with machine := m } = some s') ∨
        (l ≠ .finish ∧ s' = { s with machine := m })) := by
  unfold serverStep at h
  obtain ⟨m, hm, h⟩ := Option.bind_eq_some_iff.mp h
  refine ⟨m, hm, ?_⟩
  split at h
  · exact Or.inl ⟨rfl, h⟩
  · rename_i hne
    exact Or.inr ⟨hne, (Option.some.inj h).symm⟩

/-- Every diagnostic points to a node of `sources` when an analysis ends. -/
def KnownAtFinish (s : Server) (l : Label) : Prop :=
  l = .finish → ∀ d ∈ s.machine.analyzer.diagnostics, Known s.machine.analyzer.current d

instance (s : Server) (l : Label) : Decidable (KnownAtFinish s l) :=
  match l with
  | .finish => decidable_of_iff
      (∀ d ∈ s.machine.analyzer.diagnostics, Known s.machine.analyzer.current d)
      ⟨fun h _ => h, fun h => h rfl⟩
  | .start _ | .skip | .enter | .event _ | .asmDone _ | .chessDone | .leave =>
    isTrue fun h => by cases h

theorem finish_analyzer {E : Env} {m m' : Machine} (h : step E m .finish = some m') :
    m'.analyzer = analyzeFinish E m.analyzer := by
  cases step_cases h with
  | finish _ _ => rfl

theorem publishable_finish {E : Env} {s : Server} {m : Machine} (hs : MachineOK E s.machine)
    (hm : step E s.machine .finish = some m) (hk : KnownAtFinish s .finish) :
    Publishable E { s with machine := m } := by
  have ha := finish_analyzer hm
  have hperm : m.analyzer.diagnostics.Perm s.machine.analyzer.diagnostics := by
    rw [ha]
    exact E.qsort_perm _ _
  have hcur : m.analyzer.current = s.machine.analyzer.current := by rw [ha]; rfl
  refine ⟨(step_ok hs hm).current, fun d hd => ?_, ?_⟩
  · show Known m.analyzer.current d
    rw [hcur]
    exact hk rfl d (hperm.mem_iff.mp hd)
  · show m.analyzer.diagnostics.Pairwise fun a b =>
      uriIn m.analyzer.current a ≤ uriIn m.analyzer.current b
    rw [hcur, ha]
    exact E.qsort_sorted s.machine.analyzer.uriOf _

/-- One run of publishing with sends that succeed. -/
structure RunPublished (E : Env) (s s' : Server) : Prop where
  ok : ServerOK E s'
  view : ∀ u, (clientView s'.sent u).Perm
    (entriesUnder s.machine.analyzer.current s.machine.analyzer.diagnostics u)
  once : ∃ new, s'.sent = s.sent ++ new ∧ (new.map PublishDiagnostics.uri).Nodup
  previous : ∀ u, u ∈ s'.previouslyDiagnosed.keys ↔
    ∃ d ∈ s.machine.analyzer.diagnostics, uriIn s.machine.analyzer.current d = u

theorem finish_published {E : Env} {s s' : Server} (hs : ServerOK E s)
    (hk : KnownAtFinish s .finish)
    (h : serverStep E (fun _ => true) s .finish = some s') : RunPublished E s s' := by
  obtain ⟨m, hm, ⟨-, hpub⟩ | ⟨hne, -⟩⟩ := serverStep_cases h
  swap
  · exact absurd rfl hne
  have ha := finish_analyzer hm
  have hperm : m.analyzer.diagnostics.Perm s.machine.analyzer.diagnostics := by
    rw [ha]
    exact E.qsort_perm _ _
  have hcur : m.analyzer.current = s.machine.analyzer.current := by rw [ha]; rfl
  have hex : ∀ u, (∃ d ∈ m.analyzer.diagnostics, uriIn m.analyzer.current d = u) ↔
      ∃ d ∈ s.machine.analyzer.diagnostics, uriIn s.machine.analyzer.current d = u := by
    intro u
    rw [hcur]
    simp only [hperm.mem_iff]
  obtain ⟨t, ht, ⟨-, new, cleared, hp, hleft⟩ | ⟨⟨k, -, hk⟩, -⟩⟩ :=
    publish_cases (fun _ => true) (publishable_finish hs.machine hm hk)
  swap
  · cases hk
  obtain rfl : t = s' := Option.some.inj (ht.symm.trans hpub)
  obtain ⟨left, hcleared, hmem⟩ := hleft fun _ => rfl
  obtain ⟨hnodup, hview⟩ := hp.clientView hcleared hmem hs.shown
  have hprev : ∀ u, u ∈ t.previouslyDiagnosed.keys ↔
      ∃ d ∈ s.machine.analyzer.diagnostics, uriIn s.machine.analyzer.current d = u := by
    intro u
    rw [hp.previous u, show ({ s with machine := m } : Server).currentlyDiagnosed = .empty from
      hs.current, Table.keys_empty, ← hex u]
    simp
  refine ⟨⟨?_, hp.current, fun u hu => ?_⟩, fun u => ?_, ⟨_, hp.sent, hnodup⟩, hprev⟩
  · rw [hp.machine]
    exact step_ok hs.machine hm
  · rw [hview u] at hu
    obtain ⟨e, he⟩ := List.exists_mem_of_ne_nil _ hu
    obtain ⟨d, hd, -⟩ := List.mem_map.mp he
    obtain ⟨hd, huri⟩ := List.mem_filter.mp hd
    exact (hprev u).mpr ((hex u).mp ⟨d, hd, by simpa using huri⟩)
  · rw [hview u, hcur]
    exact (hperm.filter _).map _

theorem serverStep_ok {E : Env} {s s' : Server} {l : Label} (hs : ServerOK E s)
    (hk : KnownAtFinish s l) (h : serverStep E (fun _ => true) s l = some s') :
    ServerOK E s' := by
  by_cases hl : l = .finish
  · subst hl
    exact (finish_published hs hk h).ok
  · obtain ⟨m, hm, ⟨he, -⟩ | ⟨-, rfl⟩⟩ := serverStep_cases h
    · exact absurd he hl
    · exact ⟨step_ok hs.machine hm, hs.current, hs.shown⟩

/-- After every run whose sends succeed, and all runs before it, the client shows for each URI
    exactly the diagnostics of that run. -/
theorem client_view_tracks_last_run (E : Env) {ls : List Label} {s : Server}
    (hrun : run (serverStep E fun _ => true) Server.init (ls ++ [.finish]) = some s)
    (hknown : Meets (serverStep E fun _ => true) KnownAtFinish Server.init (ls ++ [.finish])) :
    ∃ before, run (serverStep E fun _ => true) Server.init ls = some before ∧
      (∀ u, (clientView s.sent u).Perm
        (entriesUnder before.machine.analyzer.current before.machine.analyzer.diagnostics u)) ∧
      (∃ new, s.sent = before.sent ++ new ∧ (new.map PublishDiagnostics.uri).Nodup) ∧
      s.currentlyDiagnosed = .empty ∧
      (∀ u, u ∈ s.previouslyDiagnosed.keys ↔ ∃ d ∈ before.machine.analyzer.diagnostics,
        uriIn before.machine.analyzer.current d = u) := by
  obtain ⟨before, hbefore, hfin⟩ := run_concat_some hrun
  have hok : ServerOK E before :=
    run_inv_of_meets (fun _ _ _ hs hk h => serverStep_ok hs hk h) (serverOK_init E)
      (hknown.restrict (List.prefix_append _ _)) hbefore
  have hp := finish_published hok (hknown ls .finish (List.prefix_refl _) before hbefore) hfin
  exact ⟨before, hbefore, hp.view, hp.once, hp.ok.current, hp.previous⟩

/-! ## A file that loses its diagnostic -/

def brokenDocs : Docs := Table.empty.put (ascii "a") (ascii "%")

def errorReport : Report where
  message := ascii "Invalid token"
  region := ⟨⟨1, ascii "a"⟩, ⟨⟨1, 1, 0⟩, ⟨1, 2, 1⟩⟩⟩
  related := none

/-- `a` has an error in the first run and none in the second. -/
def repairedRuns : List Label :=
  [.start brokenDocs, .enter, .event (.fopen brokenDocs ⟨1, ascii "a"⟩ none),
    .event (.report .error errorReport), .asmDone false, .leave, .finish,
    .start brokenDocs, .enter, .event (.fopen brokenDocs ⟨1, ascii "a"⟩ none), .asmDone true,
    .chessDone, .leave]

theorem client_view_tracks_repair :
    ∃ s, run (serverStep asciiEnv fun _ => true) Server.init (repairedRuns ++ [.finish]) = some s ∧
      s.sent.map (fun m => m.diagnostics.length) = [1, 0] ∧
      ∃ before, run (serverStep asciiEnv fun _ => true) Server.init repairedRuns = some before ∧
        ∀ u, (clientView s.sent u).Perm
          (entriesUnder before.machine.analyzer.current before.machine.analyzer.diagnostics u) := by
  have hsent : (run (serverStep asciiEnv fun _ => true) Server.init
      (repairedRuns ++ [.finish])).map (fun s => s.sent.map fun m => m.diagnostics.length) =
        some [1, 0] := by decide
  obtain ⟨s, hs, hlen⟩ := Option.map_eq_some_iff.mp hsent
  obtain ⟨before, hb, hview, -⟩ := client_view_tracks_last_run asciiEnv hs (by decide)
  exact ⟨s, hs, hlen, before, hb, hview⟩

end BuxnLs.Analysis
