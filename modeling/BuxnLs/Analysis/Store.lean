/-
  The document store against the documents of the client. `Notification` is what a message asks
  for and `Notification.apply` the map the client keeps; `workspaceUpdate_apply` says that the
  store does the same for every notification but a `didChange` without changes. A URI that parses
  and has no path ends the server.
-/
import BuxnLs.Lib.Run
import BuxnLs.Model.AsciiEnv
import BuxnLs.Model.Workspace
import Mathlib.Logic.Function.Basic

namespace BuxnLs.Analysis

open BuxnLs.Lib BuxnLs.Model

/-- The documents that the client has open, as a map from paths to texts. -/
abbrev ClientDocs := Str → Option Str

/-- What a message asks the store to do. -/
inductive Notification where
  | didOpen (path text : Str)
  | didChange (path : Str) (changes : List Str)
  | didClose (path : Str)
  | ignored
deriving DecidableEq, Repr

/-- The client's documents after a notification; each change replaces the text. -/
def Notification.apply (docs : ClientDocs) : Notification → ClientDocs
  | .didOpen path text => Function.update docs path (some text)
  | .didChange path changes =>
    Function.update docs path (changes.foldl (fun _ text => some text) (docs path))
  | .didClose path => Function.update docs path none
  | .ignored => docs

/-- The notification in a message. -/
def decode (E : Env) (msg : InMsg) : Notification :=
  if msg.type = .notification then
    match documentPath E msg.value with
    | none => .ignored
    | some path =>
      if msg.method = ascii "textDocument/didOpen" then
        .didOpen path (textOfJson (Json.get msg.value (ascii "textDocument")))
      else if msg.method = ascii "textDocument/didChange" then
        .didChange path ((Json.items (Json.get msg.value (ascii "contentChanges"))).map
          fun change => textOfJson (some change))
      else if msg.method = ascii "textDocument/didClose" then .didClose path
      else .ignored
  else .ignored

/-- What the store holds, as the client's kind of map. -/
def docsMap (docs : Docs) : ClientDocs := docs.find?

theorem docsMap_put (docs : Docs) (path text : Str) :
    docsMap (docs.put path text) = Function.update (docsMap docs) path (some text) := by
  funext p
  show (docs.put path text).find? p = _
  rw [Table.find?_put, Function.update_apply]
  by_cases h : path = p
  · rw [if_pos h, if_pos h.symm]
  · rw [if_neg h, if_neg (Ne.symm h)]
    rfl

theorem docsMap_remove (docs : Docs) (path : Str) :
    docsMap (docs.remove path) = Function.update (docsMap docs) path none := by
  funext p
  show (docs.remove path).find? p = _
  rw [Table.find?_remove, Function.update_apply]
  by_cases h : path = p
  · rw [if_pos h, if_pos h.symm]
  · rw [if_neg h, if_neg (Ne.symm h)]
    rfl

/-- Only the last of the changes counts. -/
theorem foldl_changes (text : Option Str) (changes : List Str) :
    changes.foldl (fun _ t => some t) text = changes.getLast?.or text := by
  induction changes generalizing text with
  | nil => rfl
  | cons t ts ih =>
      rw [List.foldl_cons, ih, List.getLast?_cons]
      cases ts.getLast? <;> rfl

/-- The URI of the document that a notification is about has a path, if it parses. -/
def HasPath (E : Env) (msg : InMsg) : Prop :=
  msg.type = .notification → readsNull E (documentUri msg.value) = false

instance (E : Env) (msg : InMsg) : Decidable (HasPath E msg) := by
  unfold HasPath
  infer_instance

/-- The cases of `workspaceUpdate`, when it has a result. -/
theorem workspaceUpdate_cases {E : Env} {docs docs' : Docs} {msg : InMsg}
    (h : workspaceUpdate E docs msg = some docs') :
    (msg.type ≠ .notification ∨ documentPath E msg.value = none) ∧ docs' = docs ∨
      ∃ path, msg.type = .notification ∧ documentPath E msg.value = some path ∧
        docs' = updateDocument docs path msg := by
  unfold workspaceUpdate at h
  split at h
  · rename_i htype
    split at h
    · cases h
    · split at h
      · rename_i hpath
        exact Or.inl ⟨Or.inr hpath, (Option.some.inj h).symm⟩
      · rename_i path hpath
        exact Or.inr ⟨path, htype, hpath, (Option.some.inj h).symm⟩
  · rename_i htype
    exact Or.inl ⟨Or.inl htype, (Option.some.inj h).symm⟩

theorem workspaceUpdate_isSome_iff (E : Env) (docs : Docs) (msg : InMsg) :
    (workspaceUpdate E docs msg).isSome ↔ HasPath E msg := by
  unfold workspaceUpdate HasPath
  by_cases htype : msg.type = .notification
  · rw [if_pos htype]
    cases hnull : readsNull E (documentUri msg.value) with
    | true => simp [htype]
    | false =>
        rw [if_neg Bool.false_ne_true]
        refine iff_of_true ?_ fun _ => rfl
        split <;> rfl
  · rw [if_neg htype]
    exact iff_of_true rfl fun h => absurd h htype

/-- The store after a message, by the notification in it: a `didChange` writes the text of its
    last change, or the empty text when it has none. -/
theorem workspaceUpdate_decode {E : Env} {docs docs' : Docs} {msg : InMsg}
    (h : workspaceUpdate E docs msg = some docs') :
    docsMap docs' =
      match decode E msg with
      | .didChange path changes =>
        Function.update (docsMap docs) path (some (changes.getLast?.getD []))
      | n => n.apply (docsMap docs) := by
  rcases workspaceUpdate_cases h with ⟨hnone, rfl⟩ | ⟨path, htype, hpath, rfl⟩
  · have hdecode : decode E msg = .ignored := by
      unfold decode
      rcases hnone with htype | hpath
      · rw [if_neg htype]
      · rw [hpath]
        split <;> rfl
    rw [hdecode]
    rfl
  · unfold decode updateDocument
    rw [if_pos htype, hpath]
    dsimp only
    split
    · exact docsMap_put docs path _
    · split
      · dsimp only
        rw [docsMap_put, List.getLast?_map]
        congr 2
        cases (Json.items (Json.get msg.value (ascii "contentChanges"))).getLast? <;> rfl
      · split
        · exact docsMap_remove docs path
        · rfl

/-- The message is no `didChange` without changes, unless the document is open and empty. -/
def KeepsText (E : Env) (client : ClientDocs) (msg : InMsg) : Prop :=
  ∀ path, decode E msg = .didChange path [] → client path = some []

theorem workspaceUpdate_apply {E : Env} {docs docs' : Docs} {msg : InMsg}
    (h : workspaceUpdate E docs msg = some docs') :
    docsMap docs' = (decode E msg).apply (docsMap docs) ↔ KeepsText E (docsMap docs) msg := by
  rw [workspaceUpdate_decode h]
  unfold KeepsText
  cases hd : decode E msg with
  | didChange path changes =>
      dsimp only [Notification.apply]
      rw [foldl_changes]
      cases changes with
      | nil =>
          rw [List.getLast?_nil, Option.getD_none, Option.none_or]
          constructor
          · intro h p hp
            cases hp
            have := congrFun h path
            rw [Function.update_self, Function.update_self] at this
            exact this.symm
          · intro h
            rw [h path rfl]
      | cons t ts =>
          rw [List.getLast?_cons, Option.getD_some, Option.some_or]
          exact ⟨fun _ p hp => (by cases hp), fun _ => rfl⟩
  | didOpen path text => exact ⟨fun _ p hp => (by cases hp), fun _ => rfl⟩
  | didClose path => exact ⟨fun _ p hp => (by cases hp), fun _ => rfl⟩
  | ignored => exact ⟨fun _ p hp => (by cases hp), fun _ => rfl⟩

/-- A message leaves the entries of all paths but its own. -/
theorem workspaceUpdate_frame {E : Env} {docs docs' : Docs} {msg : InMsg} {path : Str}
    (hupdate : workspaceUpdate E docs msg = some docs')
    (h : documentPath E msg.value ≠ some path) : docs'.find? path = docs.find? path := by
  rcases workspaceUpdate_cases hupdate with ⟨-, rfl⟩ | ⟨p, -, hp, rfl⟩
  · rfl
  · have hne : p ≠ path := fun he => h (he ▸ hp)
    unfold updateDocument
    split
    · exact Table.find?_put_ne _ _ hne
    · split
      · exact Table.find?_put_ne _ _ hne
      · split
        · rw [Table.find?_remove, if_neg hne]
        · rfl

/-! ## Whole sessions -/

/-- The store next to the client's own documents. The store is gone when an update has read a
    null path. -/
structure StorePair where
  store : Option Docs
  client : ClientDocs

def StorePair.init : StorePair := ⟨some .empty, fun _ => none⟩

def storeStep (E : Env) (s : StorePair) (msg : InMsg) : Option StorePair :=
  some ⟨s.store.bind fun docs => workspaceUpdate E docs msg, (decode E msg).apply s.client⟩

def StorePair.Agree (s : StorePair) : Prop := s.store.map docsMap = some s.client

theorem run_storeStep_isSome (E : Env) (msgs : List InMsg) (s : StorePair) :
    (run (storeStep E) s msgs).isSome := by
  induction msgs generalizing s with
  | nil => rfl
  | cons msg msgs ih =>
      rw [run_cons]
      exact ih _

theorem storeStep_agree_iff (E : Env) {s t : StorePair} {msg : InMsg} (hs : s.Agree)
    (h : storeStep E s msg = some t) : t.Agree ↔ HasPath E msg ∧ KeepsText E s.client msg := by
  obtain rfl := Option.some.inj h
  obtain ⟨docs, hdocs, hclient⟩ := Option.map_eq_some_iff.mp hs
  rw [← workspaceUpdate_isSome_iff E docs msg, ← hclient]
  unfold StorePair.Agree
  dsimp only
  rw [hdocs, Option.bind_some]
  cases hupdate : workspaceUpdate E docs msg with
  | none => simp
  | some docs' =>
      rw [Option.map_some, Option.some.injEq, workspaceUpdate_apply hupdate]
      exact ⟨fun hkeeps => ⟨rfl, hkeeps⟩, fun hboth => hboth.2⟩

/-- Over any sequence of messages, the store equals the client's documents throughout exactly
    when each document URI that parses has a path and no `didChange` comes without changes, except
    for a document that is open and empty. The entries of other paths always stay. -/
theorem store_equals_client_docs_iff (E : Env) (msgs : List InMsg) :
    (∀ docs docs' msg path, workspaceUpdate E docs msg = some docs' →
      documentPath E msg.value ≠ some path → docs'.find? path = docs.find? path) ∧
    (Always (storeStep E) StorePair.Agree StorePair.init msgs ↔
      Meets (storeStep E) (fun s msg => HasPath E msg ∧ KeepsText E s.client msg)
        StorePair.init msgs) :=
  ⟨fun _ _ _ _ hupdate h => workspaceUpdate_frame hupdate h,
    always_iff_meets (fun _ _ _ hs h => storeStep_agree_iff E hs h) rfl
      (run_storeStep_isSome E msgs StorePair.init)⟩

/-! ## A change without changes -/

def documentMsg (method : Str) (document rest : List (Str × Json)) : InMsg where
  type := .notification
  method := method
  value := some (.obj ((ascii "textDocument",
    .obj ((ascii "uri", .str (ascii "file:///w/a")) :: document)) :: rest))

-- a URI without a path ends the server, also when it is outside the root
example : (workspaceUpdate asciiEnv .empty
    { type := .notification, method := ascii "textDocument/didOpen"
      value := some (.obj [(ascii "textDocument",
        .obj [(ascii "uri", .str (ascii "http://host"))])]) }).isNone := by decide

/-- Open `a` with the text `x`, then change it with an empty list of changes. -/
def emptyChange : List InMsg :=
  [documentMsg (ascii "textDocument/didOpen") [(ascii "text", .str (ascii "x"))] [],
    documentMsg (ascii "textDocument/didChange") [] [(ascii "contentChanges", .arr [])]]

/-- The store then has the empty text where the client still has `x`. -/
theorem store_equals_client_docs_fails :
    ¬ Always (storeStep asciiEnv) StorePair.Agree StorePair.init emptyChange := by
  intro h
  obtain ⟨s, hs⟩ := Option.isSome_iff_exists.mp
    (run_storeStep_isSome asciiEnv emptyChange StorePair.init)
  have hagree : s.store.map docsMap = some s.client := h emptyChange (List.prefix_refl _) s hs
  have hstore : (run (storeStep asciiEnv) StorePair.init emptyChange).map
      (fun s => (s.store.map docsMap).map fun docs => docs (ascii "a")) =
        some (some (some [])) := by decide
  have hclient : (run (storeStep asciiEnv) StorePair.init emptyChange).map
      (fun s => s.client (ascii "a")) = some (some (ascii "x")) := by decide
  rw [hs, Option.map_some, hagree, Option.map_some] at hstore
  rw [hs] at hclient
  have hbad : some ([] : Str) = some (ascii "x") :=
    (Option.some.inj (Option.some.inj hstore)).symm.trans (Option.some.inj hclient)
  exact absurd hbad (by decide)

end BuxnLs.Analysis
