/-
  Each block has one owner. The store of documents runs with its blocks exactly as without them,
  for every sequence of messages whose documents have paths: nothing is freed twice or read after
  it was freed, the live blocks are those that the entries name, and the cleanup leaves none
  (`store_owns_its_blocks`).
  The sets of diagnosed files do the same while URIs move between them, whichever sends fail
  (`diagnosed_uris_owned`).
-/
import BuxnLs.Analysis.Reports
import BuxnLs.Analysis.Store
import BuxnLs.Lib.Run
import BuxnLs.Model.Ownership

namespace BuxnLs.Analysis

open BuxnLs.Lib BuxnLs.Model

variable {E : Env}

/-! ## The blocks of the store -/

/-- The blocks of one document: its key and its text. -/
def cellsOf (e : Str × DocEntry × Str) : List (Nat × Str) :=
  (e.2.1.key, e.1) :: Blocks.cellsAt e.2.2 e.2.1.chars

/-- The entries of the store with the texts that they stand for. -/
abbrev Described := Table Str (DocEntry × Str)

/-- The blocks of the store are those of its root path and of the documents. -/
structure StoreInv (root : Str) (w : Workspace) (docs : Described) : Prop where
  entries : w.docs = docs.mapValues Prod.fst
  blocks : w.blocks.Holds ((w.rootDir, root) :: docs.entries.flatMap cellsOf)
  texts : ∀ path e, docs.find? path = some e → (e.1.chars = none ↔ e.2 = []) ∧ e.1.len = e.2.length

theorem cells_remove {docs : Described} {path : Str} {e : DocEntry × Str}
    (h : docs.find? path = some e) :
    (docs.entries.flatMap cellsOf).Perm
      (cellsOf (path, e) ++ (docs.remove path).entries.flatMap cellsOf) :=
  (Table.entries_perm_remove h).flatMap_right cellsOf

theorem cells_put (docs : Described) (path : Str) (e : DocEntry × Str) :
    ((docs.put path e).entries.flatMap cellsOf).Perm
      (cellsOf (path, e) ++ (docs.remove path).entries.flatMap cellsOf) :=
  (docs.put_perm path e).flatMap_right cellsOf

/-- The blocks of a document beside the one of the root path, in two orders. -/
theorem perm_beside {α : Type} (text rest : List α) (key root : α) :
    (text ++ key :: root :: rest).Perm (root :: (key :: text ++ rest)) := by
  calc (text ++ key :: root :: rest).Perm (key :: (text ++ root :: rest)) := List.perm_middle
    List.Perm _ (key :: root :: (text ++ rest)) := List.perm_middle.cons _
    List.Perm _ (root :: key :: (text ++ rest)) := List.Perm.swap ..

theorem copyText_holds {b : Blocks Str} {cells : List (Nat × Str)} (h : b.Holds cells)
    (content : Str) :
    (copyText b content).1.Holds (Blocks.cellsAt content (copyText b content).2 ++ cells) ∧
      ((copyText b content).2 = none ↔ content = []) := by
  unfold copyText
  split
  · rename_i hlen
    refine ⟨h.malloc content, ⟨fun he => (by cases he), fun he => ?_⟩⟩
    rw [he] at hlen
    exact absurd hlen (Nat.lt_irrefl 0)
  · rename_i hlen
    exact ⟨h, ⟨fun _ => List.eq_nil_of_length_eq_zero (Nat.eq_zero_of_not_pos hlen), fun _ => rfl⟩⟩

theorem StoreInv.find? {root : Str} {w : Workspace} {docs : Described} (h : StoreInv root w docs)
    (path : Str) : w.docs.find? path = (docs.find? path).map Prod.fst := by
  rw [h.entries, Table.find?_mapValues]

/-- The entry that a copied text is put into. -/
theorem StoreInv.put {root : Str} {w : Workspace} {docs : Described} {path content : Str}
    {b : Blocks Str} {key : Nat} (h : StoreInv root w docs)
    (hb : b.Holds
      ((key, path) :: (w.rootDir, root) :: (docs.remove path).entries.flatMap cellsOf)) :
    StoreInv root
      { w with
        blocks := (copyText b content).1
        docs := w.docs.put path ⟨key, (copyText b content).2, content.length⟩ }
      (docs.put path (⟨key, (copyText b content).2, content.length⟩, content)) := by
  obtain ⟨hholds, hnone⟩ := copyText_holds hb content
  constructor
  case entries => rw [h.entries, Table.mapValues_put]
  case blocks =>
    refine hholds.perm ((perm_beside ..).trans ?_)
    let e : DocEntry × Str := (⟨key, (copyText b content).2, content.length⟩, content)
    exact (cells_put docs path e).symm.cons _
  case texts =>
    intro path' e he
    rcases Table.find?_put_eq_some.mp he with ⟨rfl, rfl⟩ | ⟨-, he⟩
    · exact ⟨hnone, rfl⟩
    · exact h.texts path' e he

/-- Giving a document a text never frees what is not live. -/
theorem setDoc_owned {root : Str} {w : Workspace} {docs : Described} (h : StoreInv root w docs)
    (path content : Str) :
    ∃ w' docs', setDoc w path content = some w' ∧ StoreInv root w' docs' ∧
      docs'.mapValues Prod.snd = (docs.mapValues Prod.snd).put path content := by
  unfold setDoc
  rw [h.find? path]
  cases hfind : docs.find? path with
  | none =>
      rw [Option.map_none]
      have hmalloc := h.blocks.malloc path
      rw [← Table.remove_of_notMem hfind] at hmalloc
      exact ⟨_, _, rfl, h.put hmalloc, Table.mapValues_put ..⟩
  | some e =>
      rw [Option.map_some]
      have hcells := ((cells_remove hfind).cons (w.rootDir, root)).trans
        (perm_beside (Blocks.cellsAt e.2 e.1.chars) _ (e.1.key, path) _).symm
      obtain ⟨b, hfree, hb⟩ := (h.blocks.perm hcells).freePtr
      dsimp only
      rw [hfree]
      exact ⟨_, _, rfl, h.put hb, Table.mapValues_put ..⟩

theorem removeDoc_owned {root : Str} {w : Workspace} {docs : Described}
    (h : StoreInv root w docs) (path : Str) :
    ∃ w' docs', removeDoc w path = some w' ∧ StoreInv root w' docs' ∧
      docs'.mapValues Prod.snd = (docs.mapValues Prod.snd).remove path := by
  unfold removeDoc
  rw [h.find? path]
  cases hfind : docs.find? path with
  | none =>
      rw [Option.map_none]
      refine ⟨w, docs, rfl, h, (Table.remove_of_notMem ?_).symm⟩
      rw [Table.find?_mapValues, hfind]
      rfl
  | some e =>
      rw [Option.map_some]
      have hcells := ((cells_remove hfind).cons (w.rootDir, root)).trans
        (perm_beside (Blocks.cellsAt e.2 e.1.chars) _ (e.1.key, path) _).symm
      obtain ⟨b, hkey, hb⟩ := ((h.blocks.perm hcells).perm List.perm_middle).free
      obtain ⟨b', hchars, hb'⟩ := hb.freePtr
      dsimp only
      rw [hkey, Option.bind_some, hchars]
      refine ⟨_, docs.remove path, rfl, ?_, Table.mapValues_remove ..⟩
      constructor
      case entries => rw [h.entries, Table.mapValues_remove]
      case blocks => exact hb'
      case texts =>
        intro path' e' he'
        exact h.texts path' e' (Table.find?_remove_eq_some.mp he').2

theorem updateDocument_owned {root : Str} {w : Workspace} {docs : Described}
    (h : StoreInv root w docs) (path : Str) (msg : InMsg) :
    ∃ w' docs', updateDocumentOwned w path msg = some w' ∧ StoreInv root w' docs' ∧
      docs'.mapValues Prod.snd = updateDocument (docs.mapValues Prod.snd) path msg := by
  unfold updateDocumentOwned updateDocument
  split
  · exact setDoc_owned h path _
  · split
    · exact setDoc_owned h path _
    · split
      · exact removeDoc_owned h path
      · exact ⟨w, docs, rfl, h, rfl⟩

/-- A message whose document has a path runs with its blocks as it does without them. -/
theorem workspaceUpdate_owned {root : Str} {w : Workspace} {docs : Described}
    (h : StoreInv root w docs) {msg : InMsg} (hpath : HasPath E msg) :
    ∃ w' docs', workspaceUpdateOwned E w msg = some w' ∧ StoreInv root w' docs' ∧
      workspaceUpdate { E with rootDir := root } (docs.mapValues Prod.snd) msg =
        some (docs'.mapValues Prod.snd) := by
  unfold workspaceUpdateOwned workspaceUpdate
  split
  · rename_i htype
    have hnull : readsNull { E with rootDir := root } (documentUri msg.value) = false :=
      hpath htype
    rw [h.blocks.read, Option.bind_some, hpath htype, hnull]
    cases documentPath { E with rootDir := root } msg.value with
    | none => exact ⟨w, docs, rfl, h, rfl⟩
    | some path =>
        obtain ⟨w', docs', hstep, h', hdocs⟩ := updateDocument_owned h path msg
        exact ⟨w', docs', hstep, h', congrArg some hdocs.symm⟩
  · exact ⟨w, docs, rfl, h, rfl⟩

/-- A message that runs has a document with a path. -/
theorem hasPath_of_owned {w w' : Workspace} {msg : InMsg}
    (h : workspaceUpdateOwned E w msg = some w') : HasPath E msg := by
  intro htype
  unfold workspaceUpdateOwned at h
  rw [if_pos htype] at h
  obtain ⟨root, -, h⟩ := Option.bind_eq_some_iff.mp h
  split at h
  · cases h
  · rename_i hnull
    exact Bool.eq_false_iff.mpr hnull

theorem storeInv_init (rootDir : Str) :
    StoreInv (workspaceRoot rootDir) (workspaceInit rootDir) .empty where
  entries := rfl
  blocks := Blocks.holds_empty.malloc _
  texts := fun _ _ he => by cases he

theorem run_owned {root : Str} {w : Workspace} {docs : Described} (h : StoreInv root w docs)
    {msgs : List InMsg} (hpath : ∀ msg ∈ msgs, HasPath E msg) :
    ∃ w' docs', run (workspaceUpdateOwned E) w msgs = some w' ∧ StoreInv root w' docs' ∧
      run (workspaceUpdate { E with rootDir := root }) (docs.mapValues Prod.snd) msgs =
        some (docs'.mapValues Prod.snd) := by
  induction msgs generalizing w docs with
  | nil => exact ⟨w, docs, rfl, h, rfl⟩
  | cons msg msgs ih =>
      rw [List.forall_mem_cons] at hpath
      obtain ⟨w', docs', hstep, h', hdocs⟩ := workspaceUpdate_owned h hpath.1
      obtain ⟨w'', docs'', hrun, h'', hdocs'⟩ := ih h' hpath.2
      refine ⟨w'', docs'', ?_, h'', ?_⟩
      · rw [run_cons, hstep, Option.bind_some, hrun]
      · rw [run_cons, hdocs, Option.bind_some, hdocs']

theorem hasPath_of_run {w w' : Workspace} {msgs : List InMsg}
    (h : run (workspaceUpdateOwned E) w msgs = some w') : ∀ msg ∈ msgs, HasPath E msg := by
  induction msgs generalizing w with
  | nil => exact fun _ hm => absurd hm List.not_mem_nil
  | cons msg msgs ih =>
      obtain ⟨w₁, hstep, h⟩ := run_cons_some h
      exact List.forall_mem_cons.mpr ⟨hasPath_of_owned hstep, ih h⟩

theorem freeDoc_owned (b : Blocks Str) (e : Str × DocEntry × Str) (cells : List (Nat × Str))
    (h : b.Holds (cellsOf e ++ cells)) :
    ∃ b', freeDoc b (e.1, e.2.1) = some b' ∧ b'.Holds cells := by
  obtain ⟨b', hkey, hb'⟩ := Blocks.Holds.free h
  obtain ⟨b'', hchars, hb''⟩ := hb'.freePtr
  refine ⟨b'', ?_, hb''⟩
  unfold freeDoc
  rw [hkey, Option.bind_some, hchars]

theorem cleanup_owned {root : Str} {w : Workspace} {docs : Described} (h : StoreInv root w docs) :
    ∃ b, workspaceCleanup w = some b ∧ b.live = .empty := by
  have hcells : ((w.rootDir, root) :: docs.entries.flatMap cellsOf).Perm
      (docs.entries.flatMap cellsOf ++ [(w.rootDir, root)]) :=
    (List.perm_append_singleton ..).symm
  obtain ⟨b, hdocs, hb⟩ := (h.blocks.perm hcells).freeAll
    (fun b (e : Str × DocEntry × Str) => freeDoc b (e.1, e.2.1)) freeDoc_owned
  obtain ⟨b', hroot, hb'⟩ := hb.free
  refine ⟨b', ?_, hb'.live_empty⟩
  unfold workspaceCleanup
  rw [h.entries, show (docs.mapValues Prod.fst).entries =
    docs.entries.map fun e => (e.1, e.2.1) from rfl, List.foldlM_map, hdocs, Option.bind_some,
    hroot]

/-- The blocks of the store are its root path, a key and, unless it is empty, a text for each
    document; all of them differ, and they hold what the entries stand for. -/
structure StoreOwned (root : Str) (w : Workspace) (docs : Docs) : Prop where
  root : w.blocks.read w.rootDir = some root
  keys : w.docs.keys = docs.keys
  key : ∀ path e, w.docs.find? path = some e → w.blocks.read e.key = some path
  text : ∀ path, (w.docs.find? path).bind (docText w.blocks) = docs.find? path
  live : w.blocks.live.keys.Perm
    (w.rootDir :: w.docs.entries.flatMap fun e => e.2.key :: e.2.chars.toList)

theorem StoreInv.cell {root : Str} {w : Workspace} {docs : Described} (h : StoreInv root w docs)
    {path : Str} {e : DocEntry × Str} (hfind : docs.find? path = some e) {cell : Nat × Str}
    (hcell : cell ∈ cellsOf (path, e)) : w.blocks.read cell.1 = some cell.2 := by
  refine h.blocks.read_of_mem (List.mem_cons_of_mem _ ?_)
  exact List.mem_flatMap.mpr ⟨(path, e), (docs.mem_entries_iff path e).mpr hfind, hcell⟩

theorem StoreInv.owned {root : Str} {w : Workspace} {docs : Described}
    (h : StoreInv root w docs) : StoreOwned root w (docs.mapValues Prod.snd) := by
  constructor
  case root => exact h.blocks.read
  case keys => rw [h.entries, Table.keys_mapValues, Table.keys_mapValues]
  case key =>
    intro path e he
    rw [h.find? path] at he
    obtain ⟨e, hfind, rfl⟩ := Option.map_eq_some_iff.mp he
    exact h.cell hfind List.mem_cons_self
  case text =>
    intro path
    rw [h.find? path, Table.find?_mapValues]
    cases hfind : docs.find? path with
    | none => rfl
    | some e =>
        obtain ⟨hnone, hlen⟩ := h.texts path e hfind
        rw [Option.map_some, Option.map_some, Option.bind_some]
        unfold docText
        cases hchars : e.1.chars with
        | none => rw [hnone.mp hchars]
        | some p =>
            have hcell : (p, e.2) ∈ cellsOf (path, e) := by
              simp [cellsOf, Blocks.cellsAt, hchars]
            have hread : w.blocks.read p = some e.2 := h.cell hfind hcell
            dsimp only
            rw [hread, Option.map_some, hlen, List.take_length]
  case live =>
    have hperm := List.Perm.map Prod.fst h.blocks
    refine hperm.trans (List.Perm.of_eq ?_)
    rw [h.entries, List.map_cons, List.map_flatMap]
    show _ = w.rootDir :: (docs.entries.map fun e => (e.1, e.2.1)).flatMap _
    rw [List.flatMap_map]
    refine congrArg (w.rootDir :: ·) (List.flatMap_congr fun e _ => ?_)
    simp [cellsOf, Blocks.cellsAt, Function.comp_def]

/-- Over a sequence of messages the store runs without freeing or reading what is not live exactly
    when each document URI that parses has a path; its blocks are then those of the documents that
    `workspaceUpdate` keeps, and its cleanup leaves none. -/
theorem store_owns_its_blocks (E : Env) (rootDir : Str) (msgs : List InMsg) :
    ((run (workspaceUpdateOwned E) (workspaceInit rootDir) msgs).isSome ↔
      ∀ msg ∈ msgs, HasPath E msg) ∧
    ∀ w, run (workspaceUpdateOwned E) (workspaceInit rootDir) msgs = some w →
      ∃ docs, run (workspaceUpdate { E with rootDir := workspaceRoot rootDir }) .empty msgs =
          some docs ∧
        StoreOwned (workspaceRoot rootDir) w docs ∧
        ∃ b, workspaceCleanup w = some b ∧ b.live = .empty := by
  refine ⟨⟨fun hrun => ?_, fun hpath => ?_⟩, fun w hrun => ?_⟩
  · obtain ⟨w, hrun⟩ := Option.isSome_iff_exists.mp hrun
    exact hasPath_of_run hrun
  · obtain ⟨w, -, hrun, -, -⟩ := run_owned (storeInv_init rootDir) hpath
    rw [hrun]
    rfl
  · obtain ⟨w', docs, hrun', h, hdocs⟩ :=
      run_owned (storeInv_init rootDir) (hasPath_of_run hrun)
    obtain rfl := Option.some.inj (hrun'.symm.trans hrun)
    exact ⟨_, hdocs, h.owned, cleanup_owned h⟩

/-! ## The blocks of the diagnosed files -/

/-- The block of a key. -/
def uriCell (e : Str × Nat) : Nat × DiagBlock := (e.2, .uri e.1)

/-- The blocks are the keys of the two sets and the document of the message that is built. -/
structure PublisherInv (p : Publisher) (doc : Option Nat) : Prop where
  current : p.current.mapValues (fun _ => ()) = p.server.currentlyDiagnosed
  previous : p.previous.mapValues (fun _ => ()) = p.server.previouslyDiagnosed
  blocks : p.blocks.Holds (Blocks.cellsAt .doc doc ++
    (p.previous.entries.map uriCell ++ p.current.entries.map uriCell))

theorem PublisherInv.beginMsg {p : Publisher} (h : PublisherInv p none) :
    PublisherInv p.beginMsg.1 (some p.beginMsg.2) :=
  ⟨h.current, h.previous, h.blocks.malloc .doc⟩

theorem PublisherInv.endMsg {p : Publisher} {doc : Nat} (h : PublisherInv p (some doc))
    (ok : Nat → Bool) (msg : PublishDiagnostics) :
    ∃ p', p.endMsg ok msg doc = some (p', (p.server.endMsg ok msg).2) ∧
      p'.server = (p.server.endMsg ok msg).1 ∧ PublisherInv p' none := by
  obtain ⟨blocks, hfree, hblocks⟩ := Blocks.Holds.free h.blocks
  unfold Publisher.endMsg
  rw [hfree]
  exact ⟨_, rfl, rfl, h.current, h.previous, hblocks⟩

/-- The key of a URI moves to the current set, or a new one is made. -/
theorem PublisherInv.moveUri {p : Publisher} {doc : Option Nat} (h : PublisherInv p doc)
    {uri : Str} (hfresh : uri ∉ p.server.currentlyDiagnosed.keys) :
    PublisherInv (p.moveUri uri) doc ∧ (p.moveUri uri).server = p.server.moveUri uri := by
  have hnot : p.current.find? uri = none := by
    rw [Table.find?_eq_none_iff, ← Table.keys_mapValues (fun _ => ()), h.current]
    exact hfresh
  have hput : ∀ key : Nat, ((p.current.put uri key).entries.map uriCell).Perm
      (uriCell (uri, key) :: p.current.entries.map uriCell) := by
    intro key
    have hperm := (p.current.put_perm uri key).map uriCell
    rwa [Table.remove_of_notMem hnot] at hperm
  unfold Publisher.moveUri
  cases hfind : p.previous.find? uri with
  | some key =>
      refine ⟨⟨?_, ?_, ?_⟩, rfl⟩
      · rw [Table.mapValues_put, h.current]
        rfl
      · rw [Table.mapValues_remove, h.previous]
        rfl
      · have hmove := ((Table.entries_perm_remove hfind).map uriCell).append_right
          (p.current.entries.map uriCell)
        refine h.blocks.perm (List.Perm.append_left _ ?_)
        exact (hmove.trans List.perm_middle.symm).trans ((hput key).symm.append_left _)
  | none =>
      refine ⟨⟨?_, ?_, ?_⟩, rfl⟩
      · rw [Table.mapValues_put, h.current]
        rfl
      · rw [Table.mapValues_remove, h.previous]
        rfl
      · dsimp only
        rw [Table.remove_of_notMem hfind]
        refine (h.blocks.malloc (.uri uri)).perm ?_
        rw [← List.append_assoc, ← List.append_assoc]
        exact List.perm_middle.symm.trans ((hput p.blocks.next).symm.append_left _)

/-- The loop runs with its blocks as it does without them. On sorted diagnostics a URI that comes
    up is in no group before, so its key is in the current set once. -/
theorem publishLoop_owned {c : AnalyzerCtx} (ok : Nat → Bool) (hw : CtxWF E c) {s₀ : Server}
    (hstart : s₀.currentlyDiagnosed = .empty) (ds : List Diagnostic) {done : List Diagnostic}
    {new : List PublishDiagnostics} {last : Option SrcId}
    {msg : Option (PublishDiagnostics × Nat)} {p : Publisher}
    (h : LoopInv c s₀ done new last (msg.map Prod.fst) p.server)
    (hp : PublisherInv p (msg.map Prod.snd)) (hk : ∀ x ∈ done ++ ds, Known c x)
    (hs : (done ++ ds).Pairwise fun a b => uriIn c a ≤ uriIn c b) :
    ∃ p' msg', publishLoopOwned ok c ds last msg p = some (p', msg') ∧
      publishLoop ok c ds last (msg.map Prod.fst) p.server =
        some (p'.server, msg'.map Prod.fst) ∧
      PublisherInv p' (msg'.map Prod.snd) := by
  induction ds generalizing done new last msg p with
  | nil => exact ⟨p, msg, rfl, rfl, hp⟩
  | cons d ds ih =>
      have hassoc : done ++ d :: ds = (done ++ [d]) ++ ds := by simp
      rw [hassoc] at hk hs
      have hk' : ∀ x ∈ done ++ [d], Known c x := fun x hx => hk x (List.mem_append_left _ hx)
      have hs' := (List.pairwise_append.mp hs).1
      obtain ⟨f, id, hid, hfid⟩ := (hk' d (by simp)).exists_id
      obtain ⟨src, hsrc, -⟩ := hw.sources f id hfid
      have huri : uriIn c d = src.uri := by
        unfold uriIn
        rw [hid, Option.bind_some, hsrc]
        rfl
      by_cases hne : d.location.uri ≠ last
      · have hnew : ∀ x ∈ done, uriIn c x ≠ uriIn c d := by
          cases hlast : done.getLast? with
          | none =>
              rw [List.getLast?_eq_none_iff.mp hlast]
              exact fun x hx => by cases hx
          | some e => exact uri_notMem_done hw hk' hlast hs' ((h.building e hlast).1 ▸ hne)
        have hfresh : src.uri ∉ p.server.currentlyDiagnosed.keys := by
          rw [h.current, hstart, ← huri]
          rintro (hmem | ⟨x, hx, he⟩)
          · exact absurd hmem List.not_mem_nil
          · exact hnew x hx he
        obtain ⟨hmoved, hserver⟩ := hp.moveUri hfresh
        unfold publishLoopOwned publishLoop
        rw [if_pos hne, if_pos hne, hid, Option.bind_some, hsrc]
        dsimp only
        rw [← hid]
        cases msg with
        | none =>
            have hnext : LoopInv c s₀ (done ++ [d]) (new ++ [⟨src.uri, [entryOf src.uri d]⟩])
                d.location.uri (some ⟨src.uri, [entryOf src.uri d]⟩)
                (p.moveUri src.uri).beginMsg.1.server := by
              rw [← huri] at hserver ⊢
              refine h.next hnew (hserver.trans ?_)
              simp [Server.moveUri]
            rw [← hserver]
            exact @ih _ _ _ (some (⟨src.uri, [entryOf src.uri d]⟩, _)) _ hnext hmoved.beginMsg hk hs
        | some m =>
            obtain ⟨p', hend, hserver', hp'⟩ := hmoved.endMsg ok m.1
            rw [hserver] at hend hserver'
            dsimp only [Option.map_some]
            rw [hend]
            have hsplit : (p.server.moveUri src.uri).endMsg ok m.1 =
                (p'.server, ok p.server.sends) := Prod.ext hserver'.symm rfl
            rw [hsplit]
            cases hsend : ok p.server.sends with
            | true =>
                have hnext : LoopInv c s₀ (done ++ [d]) (new ++ [⟨src.uri, [entryOf src.uri d]⟩])
                    d.location.uri (some ⟨src.uri, [entryOf src.uri d]⟩)
                    p'.beginMsg.1.server := by
                  rw [← huri] at hserver' ⊢
                  refine h.next hnew (hserver'.trans ?_)
                  simp [Server.moveUri, Server.endMsg, hsend]
                exact @ih _ _ _ (some (⟨src.uri, [entryOf src.uri d]⟩, _)) _ hnext hp'.beginMsg hk
                  hs
            | false => exact ⟨p', none, rfl, rfl, hp'⟩
      · have hlast : d.location.uri = last := not_not.mp hne
        cases hget : done.getLast? with
        | none =>
            obtain ⟨hl, -⟩ := h.start (List.getLast?_eq_none_iff.mp hget)
            rw [hl, hid] at hlast
            cases hlast
        | some e =>
            obtain ⟨new', hsame⟩ := h.same hget hlast
            unfold publishLoopOwned publishLoop
            rw [if_neg hne, if_neg hne]
            let grown := msg.map fun m =>
              ({ m.1 with diagnostics := m.1.diagnostics ++ [entryOf m.1.uri d] }, m.2)
            have hmsg : (msg.map Prod.fst).map (fun m =>
                { m with diagnostics := m.diagnostics ++ [entryOf m.uri d] }) =
                  grown.map Prod.fst := by
              rw [Option.map_map, Option.map_map]
              rfl
            have hdoc : msg.map Prod.snd = grown.map Prod.snd := by
              rw [Option.map_map]
              rfl
            rw [hmsg] at hsame ⊢
            rw [hdoc] at hp
            exact ih hsame hp hk hs

/-- Unpublishing a file frees its key and the document. -/
theorem clearUri_owned (ok : Nat → Bool) {p : Publisher} {e : Str × Nat}
    {cells : List (Nat × DiagBlock)} (h : p.blocks.Holds (uriCell e :: cells)) :
    ∃ p', clearUriOwned ok p e = some p' ∧ p'.server = clearUri ok p.server e.1 ∧
      p'.current = p.current ∧ p'.blocks.Holds cells := by
  unfold clearUriOwned
  rw [show p.blocks.read e.2 = some (.uri e.1) from h.read]
  obtain ⟨blocks, hdoc, hblocks⟩ := (h.malloc .doc).free
  obtain ⟨blocks', hkey, hblocks'⟩ := hblocks.free
  have hend : p.beginMsg.1.endMsg ok ⟨e.1, []⟩ p.beginMsg.2 =
      some ({ p with server := clearUri ok p.server e.1, blocks := blocks },
        (p.server.endMsg ok ⟨e.1, []⟩).2) := by
    unfold Publisher.endMsg
    rw [show p.beginMsg.1.blocks.free p.beginMsg.2 = some blocks from hdoc]
    rfl
  dsimp only
  rw [hend, Option.bind_some]
  dsimp only
  rw [show blocks.free e.2 = some blocks' from hkey]
  exact ⟨_, rfl, rfl, rfl, hblocks'⟩

theorem clearUris_owned (ok : Nat → Bool) {cells : List (Nat × DiagBlock)}
    {l : List (Str × Nat)} {p : Publisher} (h : p.blocks.Holds (l.map uriCell ++ cells)) :
    ∃ p', l.foldlM (clearUriOwned ok) p = some p' ∧
      p'.server = (l.map Prod.fst).foldl (clearUri ok) p.server ∧ p'.current = p.current ∧
      p'.blocks.Holds cells := by
  induction l generalizing p with
  | nil => exact ⟨p, rfl, rfl, rfl, h⟩
  | cons e l ih =>
      obtain ⟨p', hclear, hserver, hcurrent, hblocks⟩ := clearUri_owned ok h
      obtain ⟨p'', hrest, hserver', hcurrent', hblocks'⟩ := ih hblocks
      refine ⟨p'', ?_, ?_, hcurrent'.trans hcurrent, hblocks'⟩
      · rw [List.foldlM_cons, hclear]
        exact hrest
      · rw [hserver', hserver, List.map_cons, List.foldl_cons]

/-- Publishing runs with its blocks as it does without them. -/
theorem publish_owned (ok : Nat → Bool) {p : Publisher} (hpub : Publishable E p.server)
    (h : PublisherInv p none) (hcurrent : p.server.currentlyDiagnosed = .empty) :
    ∃ p', publishOwned ok p = some p' ∧ publish ok p.server = some p'.server ∧
      PublisherInv p' none ∧ p'.server.currentlyDiagnosed = .empty := by
  have hstart : LoopInv p.server.machine.analyzer.current p.server [] [] none
      ((none : Option (PublishDiagnostics × Nat)).map Prod.fst) p.server := loopInv_start _ _
  obtain ⟨q, msg, hloop, hloop', hq⟩ := publishLoop_owned ok hpub.wf hcurrent
    p.server.machine.analyzer.diagnostics hstart h hpub.known hpub.sorted
  have hlast : ∃ q', q.endLast ok msg = some q' ∧
      q'.server = (msg.map Prod.fst).elim q.server (fun m => (q.server.endMsg ok m).1) ∧
      PublisherInv q' none := by
    cases msg with
    | none => exact ⟨q, rfl, rfl, hq⟩
    | some m =>
        obtain ⟨q', hend, hserver, hq'⟩ := PublisherInv.endMsg hq ok m.1
        exact ⟨q', congrArg (Option.map Prod.fst) hend, hserver, hq'⟩
  obtain ⟨q', hend, hserver, hq'⟩ := hlast
  obtain ⟨r, hclear, hclears, hcur, hblocks⟩ := clearUris_owned ok hq'.blocks
  have hkeys : q'.previous.entries.map Prod.fst = q'.server.previouslyDiagnosed.keys := by
    rw [← hq'.previous, Table.keys_mapValues]
    rfl
  rw [hkeys] at hclears
  have hsame : r.server.currentlyDiagnosed = q'.server.currentlyDiagnosed := by
    obtain ⟨cleared, sends, he, -⟩ :=
      clearUris_spec ok q'.server.previouslyDiagnosed.keys q'.server
    rw [hclears, he]
  refine ⟨r.swap, ?_, ?_, ⟨rfl, ?_, ?_⟩, rfl⟩
  · unfold publishOwned
    dsimp only
    rw [hloop, Option.bind_some]
    dsimp only
    rw [hend, Option.bind_some, hclear, Option.map_some]
  · unfold publish
    rw [show publishLoop ok p.server.machine.analyzer.current
      p.server.machine.analyzer.diagnostics none none p.server =
        some (q.server, msg.map Prod.fst) from hloop', Option.map_some]
    dsimp only
    rw [← hserver, ← hclears]
    rfl
  · show r.current.mapValues _ = r.server.currentlyDiagnosed
    rw [hcur, hsame]
    exact hq'.current
  · show r.blocks.Holds (r.current.entries.map uriCell ++ [])
    rw [List.append_nil, hcur]
    exact hblocks

/-- A server whose blocks are the keys of the previous set. -/
structure PublisherOK (E : Env) (p : Publisher) : Prop where
  machine : MachineOK E p.server.machine
  current : p.server.currentlyDiagnosed = .empty
  inv : PublisherInv p none

theorem publisherStep_ok {ok : Nat → Bool} {p : Publisher} {s : Server} {l : Label}
    (hp : PublisherOK E p) (hk : KnownAtFinish p.server l)
    (h : serverStep E ok p.server l = some s) :
    ∃ p', publisherStep E ok p l = some p' ∧ p'.server = s ∧ PublisherOK E p' := by
  have hok := step_ok hp.machine (serverStep_machine h)
  obtain ⟨m, hm, ⟨rfl, hpub⟩ | ⟨hne, rfl⟩⟩ := serverStep_cases h
  · let q : Publisher := { p with server := { p.server with machine := m } }
    have hq : PublisherInv q none := ⟨hp.inv.current, hp.inv.previous, hp.inv.blocks⟩
    obtain ⟨p', howned, hserver, hinv, hcurrent⟩ :=
      publish_owned ok (p := q) (publishable_finish hp.machine hm hk) hq hp.current
    obtain rfl : p'.server = s := Option.some.inj (hserver.symm.trans hpub)
    refine ⟨p', ?_, rfl, ⟨hok, hcurrent, hinv⟩⟩
    unfold publisherStep
    rw [hm, Option.bind_some]
    exact howned
  · refine ⟨{ p with server := { p.server with machine := m } }, ?_, rfl,
      ⟨hok, hp.current, hp.inv.current, hp.inv.previous, hp.inv.blocks⟩⟩
    unfold publisherStep
    rw [hm, Option.bind_some]
    cases l with
    | finish => exact absurd rfl hne
    | start docs => rfl
    | skip => rfl
    | enter => rfl
    | event ev => rfl
    | asmDone success => rfl
    | chessDone => rfl
    | leave => rfl

theorem run_publisher {ok : Nat → Bool} {p : Publisher} (hp : PublisherOK E p) {ls : List Label}
    {s : Server} (hk : Meets (serverStep E ok) KnownAtFinish p.server ls)
    (h : run (serverStep E ok) p.server ls = some s) :
    ∃ p', run (publisherStep E ok) p ls = some p' ∧ p'.server = s ∧ PublisherOK E p' := by
  induction ls generalizing p with
  | nil => exact ⟨p, rfl, Option.some.inj h, hp⟩
  | cons l ls ih =>
      obtain ⟨t, ht, h⟩ := run_cons_some h
      obtain ⟨q, hq, rfl, hok⟩ := publisherStep_ok hp hk.head ht
      obtain ⟨p', hrun, hserver, hok'⟩ := ih hok (hk.tail ht) h
      exact ⟨p', by rw [run_cons, hq, Option.bind_some, hrun], hserver, hok'⟩

theorem freeKeys_owned {l : List (Str × Nat)} {b : Blocks DiagBlock}
    (h : b.Holds (l.map uriCell)) :
    ∃ b', l.foldlM (fun b e => b.free e.2) b = some b' ∧ b'.live = .empty := by
  have hcells : b.Holds (l.flatMap (fun e => [uriCell e]) ++ []) := by
    rw [List.append_nil, ← List.map_eq_flatMap]
    exact h
  obtain ⟨b', hfree, hb'⟩ := hcells.freeAll (fun b (e : Str × Nat) => b.free e.2)
    fun b e cells he => Blocks.Holds.free he
  exact ⟨b', hfree, hb'.live_empty⟩

/-- Whichever sends fail, publishing frees and reads only what is live: between runs the blocks
    are exactly one copy of each URI of the previous set, and the cleanup leaves none. -/
theorem diagnosed_uris_owned (E : Env) (ok : Nat → Bool) {ls : List Label} {s : Server}
    (h : run (serverStep E ok) Server.init ls = some s)
    (hk : Meets (serverStep E ok) KnownAtFinish Server.init ls) :
    ∃ p, run (publisherStep E ok) Publisher.init ls = some p ∧ p.server = s ∧
      p.current = .empty ∧ p.previous.keys = s.previouslyDiagnosed.keys ∧
      p.blocks.Holds (p.previous.entries.map uriCell) ∧
      ∃ b, diagnosedCleanup p = some b ∧ b.live = .empty := by
  have hinit : PublisherOK E .init := ⟨machineOK_init E, rfl, rfl, rfl, Blocks.holds_empty⟩
  obtain ⟨p, hrun, rfl, hok⟩ := run_publisher hinit hk h
  have hempty : p.current = .empty := by
    have hkeys : p.current.keys = [] := by
      rw [← Table.keys_mapValues (fun _ => ()), hok.inv.current, hok.current]
      rfl
    exact Table.ext (List.map_eq_nil_iff.mp hkeys)
  have hblocks : p.blocks.Holds (p.previous.entries.map uriCell) := by
    have hb := hok.inv.blocks
    rw [hempty] at hb
    exact (List.append_nil (p.previous.entries.map uriCell)) ▸ hb
  refine ⟨p, hrun, rfl, hempty, ?_, hblocks, freeKeys_owned hblocks⟩
  rw [← hok.inv.previous, Table.keys_mapValues]

/-- The send of the error fails, that of the clearing does not. -/
theorem diagnosed_uris_owned_repaired :
    ∃ s p, run (serverStep asciiEnv fun k => k ≠ 0) Server.init (repairedRuns ++ [.finish]) =
        some s ∧
      s.sends = 2 ∧ s.sent.length = 1 ∧ s.previouslyDiagnosed.keys = [] ∧
      run (publisherStep asciiEnv fun k => k ≠ 0) Publisher.init (repairedRuns ++ [.finish]) =
        some p ∧
      p.blocks.Holds (p.previous.entries.map uriCell) ∧
      ∃ b, diagnosedCleanup p = some b ∧ b.live = .empty := by
  have hout : (run (serverStep asciiEnv fun k => k ≠ 0) Server.init
      (repairedRuns ++ [.finish])).map (fun s =>
        (s.sends, s.sent.length, s.previouslyDiagnosed.keys)) = some (2, 1, []) := by decide
  obtain ⟨s, hs, hout⟩ := Option.map_eq_some_iff.mp hout
  simp only [Prod.mk.injEq] at hout
  obtain ⟨hsends, hsent, hkeys⟩ := hout
  obtain ⟨p, hp, -, -, -, hblocks, hcleanup⟩ :=
    diagnosed_uris_owned asciiEnv (fun k => k ≠ 0) hs (by decide)
  exact ⟨s, p, hs, hsends, hsent, hkeys, hp, hblocks, hcleanup⟩

end BuxnLs.Analysis
