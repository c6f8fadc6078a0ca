/-
  The names of documents as URIs. `buxn_ls_alloc_node` writes `file://<root_dir><filename>`
  without encoding anything, and `yuarel_parse` ends the path at the first `?` or `#`. So a name
  survives the trip when what stands behind `file://` is a path without these two bytes
  (`resolvePath_uriFor_iff`, `uriFor_resolvePath_iff`), and not otherwise. The prefix test alone
  is right: `root_dir` ends in a slash or is empty (`resolvePath_boundary`).
-/
import BuxnLs.Model.AsciiEnv
import BuxnLs.Model.Analyze
import BuxnLs.Model.Workspace

namespace BuxnLs.Analysis

open BuxnLs.Lib BuxnLs.Model

/-- `?` and `#` end the path of a URI. -/
def endsPath (ch : UInt8) : Bool := ch = 0x3f ∨ ch = 0x23

def uriPath (s : Str) : Str := s.takeWhile fun ch => !endsPath ch

/-- What `yuarel_parse` does with `file://` URIs: the path stands behind an empty authority, and
    an authority is not part of the path. -/
structure ParsesFiles (E : Env) : Prop where
  path : ∀ s, s.head? = some slash → E.yuarelPath (ascii "file://" ++ s) = some (some (uriPath s))
  authority : ∀ s path, s ≠ [] → s.head? ≠ some slash →
    E.yuarelPath (ascii "file://" ++ s) = some (some path) → path.length < s.length

/-! ## Paths -/

theorem uriPath_front (s : Str) : uriPath s <+: s := List.takeWhile_prefix _

theorem uriPath_eq_self_iff (s : Str) : uriPath s = s ↔ ∀ ch ∈ s, endsPath ch = false := by
  unfold uriPath
  rw [List.takeWhile_eq_self_iff]
  exact forall₂_congr fun ch _ => Bool.not_eq_true' (endsPath ch) ▸ Iff.rfl

theorem resolvePath_eq_some {E : Env} {uri p : Str} :
    resolvePath E (some uri) = some p ↔ E.yuarelPath uri = some (some (E.rootDir ++ p)) := by
  unfold resolvePath
  rw [Option.bind_some]
  rcases E.yuarelPath uri with _ | _ | path
  · simp
  · simp
  · dsimp only
    constructor
    · intro h
      split at h
      · rename_i hroot
        obtain ⟨rest, rfl⟩ := hroot
        rw [List.drop_left] at h
        rw [Option.some.inj h]
      · cases h
    · intro h
      rw [Option.some.inj (Option.some.inj h), if_pos (List.prefix_append _ _), List.drop_left]

theorem workspaceRoot_boundary (rootDir : Str) :
    workspaceRoot rootDir = [] ∨ (workspaceRoot rootDir).getLast? = some slash := by
  unfold workspaceRoot
  split
  · right
    rw [List.getLast?_append, List.getLast?_singleton]
    rfl
  · rename_i h
    rcases List.eq_nil_or_concat rootDir with rfl | ⟨l, ch, rfl⟩
    · exact Or.inl rfl
    · right
      by_contra hlast
      exact h ⟨by simp, hlast⟩

/-! ## The trip and back -/

/-- A file comes back under its name exactly when its path starts with a slash and contains
    neither of the two bytes. -/
theorem resolvePath_uriFor_iff {E : Env} (h : ParsesFiles E) {f : Str} (hf : f ≠ []) :
    resolvePath E (some (uriFor E f)) = some f ↔
      (E.rootDir ++ f).head? = some slash ∧ ∀ ch ∈ E.rootDir ++ f, endsPath ch = false := by
  rw [resolvePath_eq_some, uriFor, List.append_assoc]
  by_cases hslash : (E.rootDir ++ f).head? = some slash
  · rw [h.path _ hslash, Option.some.injEq, Option.some.injEq, uriPath_eq_self_iff]
    exact ⟨fun hchars => ⟨hslash, hchars⟩, fun hboth => hboth.2⟩
  · refine ⟨fun hpath => ?_, fun hboth => absurd hboth.1 hslash⟩
    have hne : E.rootDir ++ f ≠ [] := fun hnil => hf (List.append_eq_nil_iff.mp hnil).2
    exact absurd (h.authority _ _ hne hslash hpath) (Nat.lt_irrefl _)

/-- A client's URI is built again exactly when its path is outside `root_dir` or contains
    neither of the two bytes. -/
theorem uriFor_resolvePath_iff {E : Env} (h : ParsesFiles E) {s : Str}
    (hs : s.head? = some slash) :
    (∀ p, resolvePath E (some (ascii "file://" ++ s)) = some p →
        uriFor E p = ascii "file://" ++ s) ↔
      (E.rootDir <+: uriPath s → ∀ ch ∈ s, endsPath ch = false) := by
  have hparse : ∀ p, resolvePath E (some (ascii "file://" ++ s)) = some p ↔
      E.rootDir ++ p = uriPath s := by
    intro p
    rw [resolvePath_eq_some, h.path s hs, Option.some.injEq, Option.some.injEq, eq_comm]
  have hbuilt : ∀ p, E.rootDir ++ p = uriPath s →
      (uriFor E p = ascii "file://" ++ s ↔ uriPath s = s) := by
    intro p hp
    rw [uriFor, List.append_assoc, hp, List.append_right_inj]
  constructor
  · rintro hall ⟨p, hp⟩
    exact (uriPath_eq_self_iff s).mp ((hbuilt p hp).mp (hall p ((hparse p).mpr hp)))
  · intro hchars p hp
    have hp := (hparse p).mp hp
    exact (hbuilt p hp).mpr ((uriPath_eq_self_iff s).mpr (hchars ⟨p, hp⟩))

/-- What is accepted lies under `root_dir`, behind a slash. -/
theorem resolvePath_boundary {E : Env} {root : Str} (hroot : E.rootDir = workspaceRoot root)
    {uri p : Str} (h : resolvePath E (some uri) = some p) :
    E.yuarelPath uri = some (some (E.rootDir ++ p)) ∧
      (E.rootDir = [] ∨ E.rootDir.getLast? = some slash) :=
  ⟨resolvePath_eq_some.mp h, hroot ▸ workspaceRoot_boundary root⟩

/-- Document identity, for a file `f` and a client's URI `file://<s>`. -/
structure KeepsIdentity (E : Env) (f s : Str) : Prop where
  file : resolvePath E (some (uriFor E f)) = some f
  uri : ∀ p, resolvePath E (some (ascii "file://" ++ s)) = some p →
    uriFor E p = ascii "file://" ++ s
  boundary : ∀ uri p, resolvePath E (some uri) = some p →
    E.yuarelPath uri = some (some (E.rootDir ++ p)) ∧
      (E.rootDir = [] ∨ E.rootDir.getLast? = some slash)

theorem keepsIdentity_iff {E : Env} (h : ParsesFiles E) {root f s : Str}
    (hroot : E.rootDir = workspaceRoot root) (hf : f ≠ []) (hs : s.head? = some slash) :
    KeepsIdentity E f s ↔
      ((E.rootDir ++ f).head? = some slash ∧ ∀ ch ∈ E.rootDir ++ f, endsPath ch = false) ∧
        (E.rootDir <+: uriPath s → ∀ ch ∈ s, endsPath ch = false) := by
  rw [← resolvePath_uriFor_iff h hf, ← uriFor_resolvePath_iff h hs]
  exact ⟨fun hk => ⟨hk.file, hk.uri⟩,
    fun hboth => ⟨hboth.1, hboth.2, fun _ _ hp => resolvePath_boundary hroot hp⟩⟩

/-- The path behind an authority; the pointer is null when there is none. -/
def behindAuthority (s : Str) : Option Str :=
  let path := (uriPath s).dropWhile (· ≠ slash)
  if path = [] then none else some path

/-- `asciiEnv` with the path of a `file://` URI cut out as `yuarel_parse` does. -/
def fileEnv : Env :=
  { asciiEnv with
    rootDir := workspaceRoot (ascii "/w")
    yuarelPath := fun uri =>
      if ascii "file://" <+: uri then some (behindAuthority (uri.drop 7)) else none }

theorem fileEnv_path (s : Str) :
    fileEnv.yuarelPath (ascii "file://" ++ s) = some (behindAuthority s) := by
  have hdrop : (ascii "file://" ++ s).drop 7 = s := List.drop_left' rfl
  have hfile : ascii "file://" <+: ascii "file://" ++ s := List.prefix_append _ _
  unfold fileEnv
  dsimp only
  rw [if_pos hfile, hdrop]

theorem fileEnv_parsesFiles : ParsesFiles fileEnv where
  path := by
    intro s hs
    rw [fileEnv_path]
    cases s with
    | nil => cases hs
    | cons ch s =>
        obtain rfl : ch = slash := by simpa using hs
        have hcons : uriPath (slash :: s) = slash :: uriPath s := rfl
        rw [hcons]
        rfl
  authority := by
    intro s path hne hs hpath
    have hpath : behindAuthority s = some path := Option.some.inj (fileEnv_path s ▸ hpath)
    unfold behindAuthority at hpath
    dsimp only at hpath
    split at hpath
    · cases hpath
    obtain rfl := Option.some.inj hpath
    cases s with
    | nil => exact absurd rfl hne
    | cons ch s =>
        have hch : ch ≠ slash := by simpa using hs
        have hle : ((uriPath s).dropWhile (· ≠ slash)).length ≤ s.length :=
          (List.dropWhile_suffix _).length_le.trans (uriPath_front s).length_le
        unfold uriPath at hle ⊢
        rw [List.takeWhile_cons, List.length_cons]
        split
        · rw [List.dropWhile_cons, if_pos (decide_eq_true hch)]
          exact Nat.lt_succ_of_le hle
        · exact Nat.succ_pos _

theorem keepsIdentity_plain : KeepsIdentity fileEnv (ascii "lib/a.tal") (ascii "/w/b.tal") :=
  have hroot : fileEnv.rootDir = workspaceRoot (ascii "/w") := rfl
  have hfile := (uriPath_eq_self_iff (fileEnv.rootDir ++ ascii "lib/a.tal")).mp (by decide)
  have huri := (uriPath_eq_self_iff (ascii "/w/b.tal")).mp (by decide)
  (keepsIdentity_iff fileEnv_parsesFiles hroot (by decide) (by decide)).mpr
    ⟨⟨by decide, hfile⟩, fun _ => huri⟩

/-- The include `a?.tal` of a file comes back as `a`. -/
theorem keepsIdentity_fails :
    ParsesFiles fileEnv ∧ fileEnv.rootDir = workspaceRoot (ascii "/w") ∧
      resolvePath fileEnv (some (uriFor fileEnv (ascii "a?.tal"))) = some (ascii "a") ∧
      ¬ KeepsIdentity fileEnv (ascii "a?.tal") (ascii "/w/b.tal") := by
  have hback : resolvePath fileEnv (some (uriFor fileEnv (ascii "a?.tal"))) =
      some (ascii "a") := by
    decide
  refine ⟨fileEnv_parsesFiles, rfl, hback, fun h => ?_⟩
  have hfile := h.file
  rw [hback] at hfile
  exact absurd hfile (by decide)

end BuxnLs.Analysis
