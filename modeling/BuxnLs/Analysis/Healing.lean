/-
  Publishing when sends fail. A lost array only lasts until the next run that gets through: the
  file is in the previous set or is published again (`view_heals`). A lost clearing does last:
  the URI has left both sets, so nothing is sent for the file until it has a diagnostic again
  (`lost_clear_stays`).
-/
import BuxnLs.Analysis.Publish

namespace BuxnLs.Analysis

open BuxnLs.Lib BuxnLs.Model

variable {E : Env} {ok : Nat → Bool} {c : AnalyzerCtx}

/-! ## What publishing keeps -/

/-- From `s` to `t` only messages for currently diagnosed files were delivered, and the files
    that were moved to the current set have a diagnostic in `ds`. -/
structure Publishes (c : AnalyzerCtx) (ds : List Diagnostic) (s t : Server) : Prop where
  sent : ∃ new, t.sent = s.sent ++ new ∧
    ∀ m ∈ new, m.uri ∈ t.currentlyDiagnosed.keys ∧ ∃ d ∈ ds, uriIn c d = m.uri
  sends : s.sends ≤ t.sends
  grown : ∀ u, u ∈ s.currentlyDiagnosed.keys → u ∈ t.currentlyDiagnosed.keys
  origin : ∀ u, u ∈ t.currentlyDiagnosed.keys →
    u ∈ s.currentlyDiagnosed.keys ∨ ∃ d ∈ ds, uriIn c d = u
  kept : ∀ u, u ∈ s.previouslyDiagnosed.keys →
    u ∈ t.previouslyDiagnosed.keys ∨ u ∈ t.currentlyDiagnosed.keys
  shrunk : ∀ u, u ∈ t.previouslyDiagnosed.keys → u ∈ s.previouslyDiagnosed.keys
  machine : t.machine = s.machine

theorem Publishes.refl (c : AnalyzerCtx) (ds : List Diagnostic) (s : Server) :
    Publishes c ds s s where
  sent := ⟨[], (List.append_nil _).symm, fun _ hm => absurd hm List.not_mem_nil⟩
  sends := Nat.le_refl _
  grown := fun _ => id
  origin := fun _ => Or.inl
  kept := fun _ => Or.inl
  shrunk := fun _ => id
  machine := rfl

theorem Publishes.trans {ds : List Diagnostic} {s t v : Server} (h : Publishes c ds s t)
    (h' : Publishes c ds t v) : Publishes c ds s v := by
  constructor
  case sent =>
    obtain ⟨new, hsent, hnew⟩ := h.sent
    obtain ⟨new', hsent', hnew'⟩ := h'.sent
    refine ⟨new ++ new', by rw [hsent', hsent, List.append_assoc], fun m hm => ?_⟩
    rcases List.mem_append.mp hm with hm | hm
    · exact ⟨h'.grown _ (hnew m hm).1, (hnew m hm).2⟩
    · exact hnew' m hm
  case sends => exact h.sends.trans h'.sends
  case grown => exact fun u hu => h'.grown u (h.grown u hu)
  case origin => exact fun u hu => (h'.origin u hu).elim (h.origin u) Or.inr
  case kept =>
    intro u hu
    rcases h.kept u hu with hu | hu
    · exact h'.kept u hu
    · exact Or.inr (h'.grown u hu)
  case shrunk => exact fun u hu => h.shrunk u (h'.shrunk u hu)
  case machine => exact h'.machine.trans h.machine

theorem publishes_moveUri {ds : List Diagnostic} {d : Diagnostic} (hd : d ∈ ds) (s : Server) :
    Publishes c ds s (s.moveUri (uriIn c d)) := by
  have hcur : ∀ u, u ∈ (s.moveUri (uriIn c d)).currentlyDiagnosed.keys ↔
      u ∈ s.currentlyDiagnosed.keys ∨ u = uriIn c d := fun u => Table.mem_keys_put ..
  have hprev : ∀ u, u ∈ (s.moveUri (uriIn c d)).previouslyDiagnosed.keys ↔
      u ∈ s.previouslyDiagnosed.keys ∧ u ≠ uriIn c d := fun u => Table.mem_keys_remove ..
  constructor
  case sent => exact ⟨[], (List.append_nil _).symm, fun _ hm => absurd hm List.not_mem_nil⟩
  case sends => exact Nat.le_refl _
  case grown => exact fun u hu => (hcur u).mpr (Or.inl hu)
  case origin => exact fun u hu => ((hcur u).mp hu).imp id fun he => ⟨d, hd, he.symm⟩
  case kept =>
    intro u hu
    by_cases he : u = uriIn c d
    · exact Or.inr ((hcur u).mpr (Or.inr he))
    · exact Or.inl ((hprev u).mpr ⟨hu, he⟩)
  case shrunk => exact fun u hu => ((hprev u).mp hu).1
  case machine => rfl

/-- A message may be sent for a file that is in the current set. -/
def Ready (c : AnalyzerCtx) (ds : List Diagnostic) (s : Server) (msg : Option PublishDiagnostics) :
    Prop :=
  ∀ m, msg = some m → m.uri ∈ s.currentlyDiagnosed.keys ∧ ∃ d ∈ ds, uriIn c d = m.uri

theorem publishes_endMsg (ok : Nat → Bool) {ds : List Diagnostic} {s : Server}
    {m : PublishDiagnostics} (hm : Ready c ds s (some m)) : Publishes c ds s (s.endMsg ok m).1 := by
  constructor
  case sent =>
    unfold Server.endMsg
    dsimp only
    split
    · refine ⟨[m], rfl, fun m' hm' => ?_⟩
      rw [List.mem_singleton.mp hm']
      exact hm m rfl
    · exact ⟨[], (List.append_nil _).symm, fun _ hm => absurd hm List.not_mem_nil⟩
  case sends => exact Nat.le_succ _
  case grown => exact fun _ => id
  case origin => exact fun _ => Or.inl
  case kept => exact fun _ => Or.inl
  case shrunk => exact fun _ => id
  case machine => rfl

theorem uriIn_of_src {d : Diagnostic} {src : SrcNode}
    (h : d.location.uri.bind (c.srcs[·]?) = some src) : uriIn c d = src.uri := by
  unfold uriIn
  rw [h]
  rfl

theorem publishLoop_publishes {all ds : List Diagnostic} (hall : ds ⊆ all) {last : Option SrcId}
    {msg msg' : Option PublishDiagnostics} {s t : Server} (hmsg : Ready c all s msg)
    (h : publishLoop ok c ds last msg s = some (t, msg')) :
    Publishes c all s t ∧ Ready c all t msg' := by
  induction ds generalizing last msg s with
  | nil =>
      rw [publishLoop] at h
      obtain ⟨rfl, rfl⟩ := Prod.mk.inj (Option.some.inj h)
      exact ⟨.refl c all s, hmsg⟩
  | cons d ds ih =>
      have hd : d ∈ all := hall List.mem_cons_self
      have hds : ds ⊆ all := fun x hx => hall (List.mem_cons_of_mem _ hx)
      rw [publishLoop] at h
      split at h
      · split at h
        · cases h
        · rename_i src hsrc
          have huri := uriIn_of_src hsrc
          have hmove := publishes_moveUri (c := c) hd s
          rw [huri] at hmove
          have hnext : ∀ v, (s.moveUri src.uri).currentlyDiagnosed = v.currentlyDiagnosed →
              Ready c all v (some ⟨src.uri, [entryOf src.uri d]⟩) := by
            rintro v hv m hm
            obtain rfl := Option.some.inj hm
            refine ⟨?_, d, hd, huri⟩
            rw [← hv]
            exact (Table.mem_keys_put ..).mpr (Or.inr rfl)
          dsimp only at h
          split at h
          · obtain ⟨hloop, hready⟩ := ih hds (hnext _ rfl) h
            exact ⟨hmove.trans hloop, hready⟩
          · rename_i m
            have hready : Ready c all (s.moveUri src.uri) (some m) := fun m' hm' =>
              ⟨hmove.grown _ (hmsg m' hm').1, (hmsg m' hm').2⟩
            have hend := hmove.trans (publishes_endMsg ok hready)
            split at h
            · rename_i v hv
              obtain rfl : ((s.moveUri src.uri).endMsg ok m).1 = v := congrArg Prod.fst hv
              obtain ⟨hloop, hready⟩ :=
                ih hds (hnext ((s.moveUri src.uri).endMsg ok m).1 rfl) h
              exact ⟨hend.trans hloop, hready⟩
            · rename_i v hv
              obtain rfl : ((s.moveUri src.uri).endMsg ok m).1 = v := congrArg Prod.fst hv
              obtain ⟨rfl, rfl⟩ := Prod.mk.inj (Option.some.inj h)
              exact ⟨hend, fun _ hm => by cases hm⟩
      · refine ih hds (fun m' hm' => ?_) h
        obtain ⟨m, hm, rfl⟩ := Option.map_eq_some_iff.mp hm'
        exact hmsg m hm

/-- `publish` up to the last array, where the clearing starts. -/
def afterArrays (ok : Nat → Bool) (s : Server) : Option Server :=
  (publishLoop ok s.machine.analyzer.current s.machine.analyzer.diagnostics none none s).map
    fun (s, msg) => msg.elim s fun m => (s.endMsg ok m).1

/-- The end of `publish`: clear what is left of the previous set, then swap. -/
def clearAndSwap (ok : Nat → Bool) (s : Server) : Server :=
  let s := s.previouslyDiagnosed.keys.foldl (clearUri ok) s
  { s with previouslyDiagnosed := s.currentlyDiagnosed, currentlyDiagnosed := .empty }

theorem publish_eq (ok : Nat → Bool) (s : Server) :
    publish ok s = (afterArrays ok s).map (clearAndSwap ok) := by
  unfold publish afterArrays
  rw [Option.map_map]
  rfl

theorem afterArrays_publishes {s a : Server} (h : afterArrays ok s = some a) :
    Publishes s.machine.analyzer.current s.machine.analyzer.diagnostics s a := by
  obtain ⟨⟨t, msg⟩, hloop, rfl⟩ := Option.map_eq_some_iff.mp h
  obtain ⟨hpub, hready⟩ :=
    publishLoop_publishes (fun _ => id) (fun _ hm => by cases hm) hloop
  cases msg with
  | none => exact hpub
  | some m => exact hpub.trans (publishes_endMsg ok hready)

/-! ## The clearing -/

/-- The clearing sends empty arrays for some of its keys, for all when they are delivered. -/
theorem clearUris_sublist (ok : Nat → Bool) (keys : List Str) (s : Server) :
    ∃ cleared, keys.foldl (clearUri ok) s =
        { s with sent := s.sent ++ cleared, sends := s.sends + keys.length } ∧
      cleared.Sublist (keys.map fun u => ⟨u, []⟩) ∧
      ((∀ k < keys.length, ok (s.sends + k) = true) →
        cleared = keys.map fun u => ⟨u, []⟩) := by
  induction keys generalizing s with
  | nil => exact ⟨[], by simp, List.Sublist.refl _, fun _ => rfl⟩
  | cons u keys ih =>
      obtain ⟨cleared, he, hsub, hall⟩ := ih (clearUri ok s u)
      have hrest (h : ∀ k < (u :: keys).length, ok (s.sends + k) = true) :
          cleared = keys.map fun u => ⟨u, []⟩ := by
        refine hall fun k hk => ?_
        rw [show (clearUri ok s u).sends + k = s.sends + (k + 1) from Nat.succ_add_eq_add_succ ..]
        exact h (k + 1) (Nat.succ_lt_succ hk)
      have hsends : s.sends + 1 + keys.length = s.sends + (u :: keys).length := by
        rw [List.length_cons]
        omega
      rw [List.foldl_cons, he]
      cases hok : ok s.sends with
      | true =>
          refine ⟨⟨u, []⟩ :: cleared, ?_, hsub.cons_cons _, fun h => ?_⟩
          · simp [clearUri, Server.endMsg, hok, hsends]
          · rw [hrest h, List.map_cons]
      | false =>
          refine ⟨cleared, ?_, hsub.cons _, fun h => ?_⟩
          · simp [clearUri, Server.endMsg, hok, hsends]
          · have hfirst := h 0 (Nat.succ_pos _)
            rw [Nat.add_zero, hok] at hfirst
            cases hfirst

/-- Where a run of publishing clears only with sends that succeed, it shows nothing for a file
    that is in neither set afterwards. -/
theorem clearAndSwap_shown {s a : Server} {ds : List Diagnostic} (h : Publishes c ds s a)
    (hclears : ∀ k < a.previouslyDiagnosed.keys.length, ok (a.sends + k) = true)
    (hshown : ∀ u, clientView s.sent u ≠ [] → u ∈ s.previouslyDiagnosed.keys) (u : Str)
    (hview : clientView (clearAndSwap ok a).sent u ≠ []) :
    u ∈ (clearAndSwap ok a).previouslyDiagnosed.keys := by
  obtain ⟨new, hsent, hnew⟩ := h.sent
  obtain ⟨cleared, he, -, hall⟩ := clearUris_sublist ok a.previouslyDiagnosed.keys a
  unfold clearAndSwap at hview ⊢
  dsimp only at hview ⊢
  rw [he] at hview ⊢
  dsimp only at hview ⊢
  rw [hall hclears, hsent] at hview
  by_cases hleft : u ∈ a.previouslyDiagnosed.keys
  · -- it was cleared last
    refine absurd ?_ hview
    have hnodup : ((a.previouslyDiagnosed.keys.map fun u => (⟨u, []⟩ : PublishDiagnostics)).map
        PublishDiagnostics.uri).Nodup := by
      rw [List.map_map]
      exact (List.map_id _).symm ▸ a.previouslyDiagnosed.nodup
    exact clientView_append_of_mem (m := ⟨u, []⟩) hnodup (List.mem_map_of_mem hleft)
  · have hnot : u ∉ (a.previouslyDiagnosed.keys.map fun u => (⟨u, []⟩ : PublishDiagnostics)).map
        PublishDiagnostics.uri := by
      rw [List.map_map]
      intro hu
      obtain ⟨v, hv, rfl⟩ := List.mem_map.mp hu
      exact hleft hv
    rw [clientView_append_of_notMem hnot] at hview
    by_cases hu : u ∈ new.map PublishDiagnostics.uri
    · obtain ⟨m, hm, rfl⟩ := List.mem_map.mp hu
      exact (hnew m hm).1
    · rw [clientView_append_of_notMem hu] at hview
      exact (h.kept u (hshown u hview)).resolve_left hleft

/-! ## Runs whose clearings are delivered -/

/-- The notifications that clear a file are delivered. -/
def ClearsDelivered (E : Env) (ok : Nat → Bool) (s : Server) (l : Label) : Prop :=
  l = .finish →
    ∀ a ∈ (step E s.machine .finish).bind fun m => afterArrays ok { s with machine := m },
      ∀ k < a.previouslyDiagnosed.keys.length, ok (a.sends + k) = true

instance (E : Env) (ok : Nat → Bool) (s : Server) (l : Label) :
    Decidable (ClearsDelivered E ok s l) :=
  match l with
  | .finish => decidable_of_iff
      (∀ a ∈ (step E s.machine .finish).bind fun m => afterArrays ok { s with machine := m },
        ∀ k < a.previouslyDiagnosed.keys.length, ok (a.sends + k) = true)
      ⟨fun h _ => h, fun h => h rfl⟩
  | .start _ | .skip | .enter | .event _ | .asmDone _ | .chessDone | .leave =>
    isTrue fun h => by cases h

theorem serverStep_heals {s s' : Server} {l : Label} (hs : ServerOK E s)
    (hclears : ClearsDelivered E ok s l) (h : serverStep E ok s l = some s') :
    ServerOK E s' := by
  obtain ⟨m, hm, ⟨rfl, hpub⟩ | ⟨-, rfl⟩⟩ := serverStep_cases h
  · rw [publish_eq] at hpub
    obtain ⟨a, ha, rfl⟩ := Option.map_eq_some_iff.mp hpub
    have hkeeps := afterArrays_publishes ha
    have hmem : a ∈ (step E s.machine .finish).bind fun m =>
        afterArrays ok { s with machine := m } := by
      rw [hm]
      exact ha
    obtain ⟨cleared, he, -⟩ := clearUris_sublist ok a.previouslyDiagnosed.keys a
    constructor
    case machine =>
      have hmachine : (clearAndSwap ok a).machine = m := by
        unfold clearAndSwap
        rw [he]
        exact hkeeps.machine
      rw [hmachine]
      exact step_ok hs.machine hm
    case current => rfl
    case shown => exact clearAndSwap_shown hkeeps (hclears rfl a hmem) hs.shown
  · exact ⟨step_ok hs.machine hm, hs.current, hs.shown⟩

/-- Publishing does not look at the outcome of sends it does not try. -/
theorem publishLoop_congr {ds : List Diagnostic} {last : Option SrcId}
    {msg msg' : Option PublishDiagnostics} {s t : Server}
    (h : publishLoop ok c ds last msg s = some (t, msg'))
    (hok : ∀ k, s.sends ≤ k → k < t.sends → ok k = true) :
    s.sends ≤ t.sends ∧ publishLoop (fun _ => true) c ds last msg s = some (t, msg') := by
  induction ds generalizing last msg s with
  | nil =>
      rw [publishLoop] at h ⊢
      obtain ⟨rfl, rfl⟩ := Prod.mk.inj (Option.some.inj h)
      exact ⟨Nat.le_refl _, rfl⟩
  | cons d ds ih =>
      unfold publishLoop at h ⊢
      split at h
      · rename_i hne
        rw [if_pos hne]
        split at h
        · cases h
        · rename_i src hsrc
          dsimp only
          cases msg with
          | none => exact ih h hok
          | some m =>
              dsimp only at h ⊢
              split at h
              · rename_i v hv
                obtain rfl : ((s.moveUri src.uri).endMsg ok m).1 = v := congrArg Prod.fst hv
                obtain ⟨hle, hloop⟩ := ih h fun k hk => hok k (Nat.le_of_succ_le hk)
                have hsend : ok s.sends = true := congrArg Prod.snd hv
                refine ⟨Nat.le_of_succ_le hle, ?_⟩
                simpa [Server.endMsg, Server.moveUri, hsend] using hloop
              · rename_i v hv
                obtain rfl : ((s.moveUri src.uri).endMsg ok m).1 = v := congrArg Prod.fst hv
                obtain ⟨rfl, rfl⟩ := Prod.mk.inj (Option.some.inj h)
                have hsend : ok s.sends = false := congrArg Prod.snd hv
                rw [hok s.sends (Nat.le_refl _) (Nat.lt_succ_self s.sends)] at hsend
                cases hsend
      · rename_i hsame
        rw [if_neg hsame]
        exact ih h hok

theorem afterArrays_congr {s a : Server} (h : afterArrays ok s = some a)
    (hok : ∀ k, s.sends ≤ k → k < a.sends → ok k = true) :
    afterArrays (fun _ => true) s = some a := by
  obtain ⟨⟨t, msg⟩, hloop, rfl⟩ := Option.map_eq_some_iff.mp h
  cases msg with
  | none =>
      obtain ⟨-, hloop'⟩ := publishLoop_congr hloop hok
      unfold afterArrays
      rw [hloop']
      rfl
  | some m =>
      obtain ⟨hle, hloop'⟩ := publishLoop_congr hloop
        fun k hk₁ hk₂ => hok k hk₁ (Nat.lt_succ_of_lt hk₂)
      have hsend : ok t.sends = true := hok t.sends hle (Nat.lt_succ_self _)
      unfold afterArrays
      rw [hloop']
      simp [Server.endMsg, hsend]

theorem clearAndSwap_congr {a : Server}
    (hok : ∀ k < a.previouslyDiagnosed.keys.length, ok (a.sends + k) = true) :
    clearAndSwap (fun _ => true) a = clearAndSwap ok a := by
  obtain ⟨cleared, he, -, hall⟩ := clearUris_sublist ok a.previouslyDiagnosed.keys a
  obtain ⟨cleared', he', -, hall'⟩ :=
    clearUris_sublist (fun _ => true) a.previouslyDiagnosed.keys a
  unfold clearAndSwap
  rw [he, he', hall hok, hall' fun _ _ => rfl]

theorem clearAndSwap_sends (ok : Nat → Bool) (a : Server) :
    (clearAndSwap ok a).sends = a.sends + a.previouslyDiagnosed.keys.length := by
  obtain ⟨cleared, he, -⟩ := clearUris_sublist ok a.previouslyDiagnosed.keys a
  unfold clearAndSwap
  rw [he]

theorem publish_congr {s t : Server} (h : publish ok s = some t)
    (hok : ∀ k, s.sends ≤ k → k < t.sends → ok k = true) :
    publish (fun _ => true) s = some t := by
  rw [publish_eq] at h ⊢
  obtain ⟨a, ha, rfl⟩ := Option.map_eq_some_iff.mp h
  have hge := (afterArrays_publishes ha).sends
  rw [clearAndSwap_sends] at hok
  rw [afterArrays_congr ha fun k hk₁ hk₂ => hok k hk₁ (Nat.lt_add_right _ hk₂), Option.map_some,
    clearAndSwap_congr fun k hk => hok _ (Nat.le_add_right_of_le hge) (Nat.add_lt_add_left hk _)]

/-- Whatever was lost before, once an analysis is published with sends that succeed, the client
    shows for each URI exactly the diagnostics of that analysis, when no clearing was lost. -/
theorem view_heals (E : Env) (ok : Nat → Bool) {ls : List Label} {s before : Server}
    (hbefore : run (serverStep E ok) Server.init ls = some before)
    (hclears : Meets (serverStep E ok) (ClearsDelivered E ok) Server.init ls)
    (hfinish : serverStep E ok before .finish = some s)
    (hsends : ∀ k, before.sends ≤ k → k < s.sends → ok k = true)
    (hknown : KnownAtFinish before .finish) (u : Str) :
    (clientView s.sent u).Perm
      (entriesUnder before.machine.analyzer.current before.machine.analyzer.diagnostics u) := by
  have hok : ServerOK E before :=
    run_inv_of_meets (fun _ _ _ hs hC h => serverStep_heals hs hC h) (serverOK_init E) hclears
      hbefore
  obtain ⟨m, hm, ⟨-, hpub⟩ | ⟨hne, -⟩⟩ := serverStep_cases hfinish
  · have hall : serverStep E (fun _ => true) before .finish = some s := by
      unfold serverStep
      rw [hm, Option.bind_some]
      exact publish_congr hpub hsends
    exact (finish_published hok hknown hall).view u
  · exact absurd rfl hne

/-- `a` has the same error in two runs. -/
def brokenTwice : List Label :=
  repairedRuns.take 7 ++ [.start brokenDocs, .enter,
    .event (.fopen brokenDocs ⟨1, ascii "a"⟩ none), .event (.report .error errorReport),
    .asmDone false, .leave]

/-- The only send of the first run fails. -/
def firstFails (k : Nat) : Bool := k ≠ 0

theorem view_heals_second :
    ∃ before s, run (serverStep asciiEnv firstFails) Server.init brokenTwice = some before ∧
      before.sent = [] ∧ serverStep asciiEnv firstFails before .finish = some s ∧
      (clientView s.sent (ascii "file:///w/a")).Perm
        (entriesUnder before.machine.analyzer.current before.machine.analyzer.diagnostics
          (ascii "file:///w/a")) := by
  have hout : ((run (serverStep asciiEnv firstFails) Server.init brokenTwice).bind fun before =>
      (serverStep asciiEnv firstFails before .finish).map fun s =>
        (before.sent.length, before.sends, s.sends)) = some (0, 1, 2) := by decide
  obtain ⟨before, hb, hout⟩ := Option.bind_eq_some_iff.mp hout
  obtain ⟨s, hs, hout⟩ := Option.map_eq_some_iff.mp hout
  obtain ⟨hlen, hsends⟩ := Prod.mk.injEq _ _ _ _ |>.mp hout
  obtain ⟨hfirst, hlast⟩ := Prod.mk.injEq _ _ _ _ |>.mp hsends
  refine ⟨before, s, hb, List.length_eq_zero_iff.mp hlen, hs, ?_⟩
  refine view_heals asciiEnv firstFails hb (by decide) hs (fun k hk _ => ?_) ?_ _
  · rw [hfirst] at hk
    exact decide_eq_true (Nat.one_le_iff_ne_zero.mp hk)
  · have hknown : Meets (serverStep asciiEnv firstFails) KnownAtFinish Server.init
        (brokenTwice ++ [.finish]) := by decide
    exact hknown brokenTwice .finish List.prefix_rfl before hb

/-! ## A clearing that is lost -/

/-- The analysis that ends has no diagnostic for the file. -/
def NoDiagnosticAt (u : Str) (s : Server) (l : Label) : Prop :=
  l = .finish → ∀ d ∈ s.machine.analyzer.diagnostics, uriIn s.machine.analyzer.current d ≠ u

instance (u : Str) (s : Server) (l : Label) : Decidable (NoDiagnosticAt u s l) :=
  match l with
  | .finish => decidable_of_iff
      (∀ d ∈ s.machine.analyzer.diagnostics, uriIn s.machine.analyzer.current d ≠ u)
      ⟨fun h _ => h, fun h => h rfl⟩
  | .start _ | .skip | .enter | .event _ | .asmDone _ | .chessDone | .leave =>
    isTrue fun h => by cases h

/-- The file is in neither set, and the client shows `view` for it. -/
structure Forgotten (u : Str) (view : List DiagnosticEntry) (s : Server) : Prop where
  current : s.currentlyDiagnosed = .empty
  previous : u ∉ s.previouslyDiagnosed.keys
  view : clientView s.sent u = view

theorem Forgotten.next {u : Str} {view : List DiagnosticEntry} {s s' : Server} {l : Label}
    (hs : Forgotten u view s) (hno : NoDiagnosticAt u s l)
    (h : serverStep E ok s l = some s') : Forgotten u view s' := by
  obtain ⟨m, hm, ⟨rfl, hpub⟩ | ⟨-, rfl⟩⟩ := serverStep_cases h
  · rw [publish_eq] at hpub
    obtain ⟨a, ha, rfl⟩ := Option.map_eq_some_iff.mp hpub
    have hkeeps := afterArrays_publishes ha
    obtain ⟨new, hsent, hnew⟩ := hkeeps.sent
    obtain ⟨cleared, he, hsub, -⟩ := clearUris_sublist ok a.previouslyDiagnosed.keys a
    have hnone : ¬ ∃ d ∈ m.analyzer.diagnostics, uriIn m.analyzer.current d = u := by
      rintro ⟨d, hd, hu⟩
      rw [finish_analyzer hm] at hd hu
      exact hno rfl d ((E.qsort_perm _ _).mem_iff.mp hd) hu
    have hnotNew : u ∉ new.map PublishDiagnostics.uri := by
      intro hu
      obtain ⟨msg, hmsg, rfl⟩ := List.mem_map.mp hu
      exact hnone (hnew msg hmsg).2
    have hnotCleared : u ∉ cleared.map PublishDiagnostics.uri := by
      intro hu
      obtain ⟨msg, hmsg, rfl⟩ := List.mem_map.mp hu
      obtain ⟨v, hv, rfl⟩ := List.mem_map.mp (hsub.mem hmsg)
      exact hs.previous (hkeeps.shrunk v hv)
    constructor
    case current => rfl
    case previous =>
      unfold clearAndSwap
      rw [he]
      intro hu
      rcases hkeeps.origin u hu with hu | hu
      · rw [show ({ s with machine := m } : Server).currentlyDiagnosed = .empty from
          hs.current] at hu
        exact absurd hu List.not_mem_nil
      · exact hnone hu
    case view =>
      unfold clearAndSwap
      rw [he]
      dsimp only
      rw [clientView_append_of_notMem hnotCleared, hsent,
        clientView_append_of_notMem hnotNew]
      exact hs.view
  · exact ⟨hs.current, hs.previous, hs.view⟩

theorem reachable_current {s : Server} (hr : Reachable (serverStep E ok) Server.init s) :
    s.currentlyDiagnosed = .empty := by
  refine hr.inv (P := fun s => s.currentlyDiagnosed = .empty) rfl fun s l t hs h => ?_
  obtain ⟨m, hm, ⟨rfl, hpub⟩ | ⟨-, rfl⟩⟩ := serverStep_cases h
  · rw [publish_eq] at hpub
    obtain ⟨a, ha, rfl⟩ := Option.map_eq_some_iff.mp hpub
    rfl
  · exact hs

/-- A file that is shown but no longer in the previous set keeps what it shows, whatever sends
    succeed, until an analysis has a diagnostic for it. -/
theorem lost_clear_stays (E : Env) (ok : Nat → Bool) {s t : Server} {ls : List Label} {u : Str}
    (hr : Reachable (serverStep E ok) Server.init s) (hlost : u ∉ s.previouslyDiagnosed.keys)
    (hno : Meets (serverStep E ok) (NoDiagnosticAt u) s ls)
    (h : run (serverStep E ok) s ls = some t) :
    clientView t.sent u = clientView s.sent u ∧ u ∉ t.previouslyDiagnosed.keys := by
  have hforgotten : Forgotten u (clientView s.sent u) s := ⟨reachable_current hr, hlost, rfl⟩
  have hend := run_inv_of_meets (fun _ _ _ hs hC h => hs.next hC h) hforgotten hno h
  exact ⟨hend.view, hend.previous⟩

/-- The clearing of `a`, the second send, fails. -/
def clearFails (k : Nat) : Bool := k ≠ 1

/-- `a` is analyzed once more, without errors. -/
def repairedAgain : List Label := repairedRuns.drop 7 ++ [.finish]

theorem lost_clear_stays_shown :
    ∃ s t, run (serverStep asciiEnv clearFails) Server.init (repairedRuns ++ [.finish]) = some s ∧
      run (serverStep asciiEnv clearFails) s repairedAgain = some t ∧
      (clientView s.sent (ascii "file:///w/a")).length = 1 ∧
      clientView t.sent (ascii "file:///w/a") = clientView s.sent (ascii "file:///w/a") := by
  have hout : ((run (serverStep asciiEnv clearFails) Server.init
      (repairedRuns ++ [.finish])).bind fun s =>
        (run (serverStep asciiEnv clearFails) s repairedAgain).map fun _ =>
          ((clientView s.sent (ascii "file:///w/a")).length, s.previouslyDiagnosed.keys,
            decide (Meets (serverStep asciiEnv clearFails) (NoDiagnosticAt (ascii "file:///w/a"))
              s repairedAgain))) = some (1, [], true) := by decide
  obtain ⟨s, hs, hout⟩ := Option.bind_eq_some_iff.mp hout
  obtain ⟨t, ht, hout⟩ := Option.map_eq_some_iff.mp hout
  obtain ⟨hlen, hout⟩ := Prod.mk.injEq _ _ _ _ |>.mp hout
  obtain ⟨hkeys, hno⟩ := Prod.mk.injEq _ _ _ _ |>.mp hout
  have hlost : ascii "file:///w/a" ∉ s.previouslyDiagnosed.keys := by
    rw [hkeys]
    exact List.not_mem_nil
  exact ⟨s, t, hs, ht, hlen,
    (lost_clear_stays asciiEnv clearFails ⟨_, hs⟩ hlost (of_decide_eq_true hno) ht).1⟩

end BuxnLs.Analysis
