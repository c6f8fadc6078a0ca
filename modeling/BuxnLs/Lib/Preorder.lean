/-
  A depth-first walk that emits open vertices once. `emit` appends a vertex that is open, stops
  at one it has emitted, and passes through one that is closed; it leaves no mark there. On an
  acyclic graph the output is the preorder of the unfolded graph, cut down to the open vertices
  and to their first occurrences (`walks_eq`, `schedule_eq`): a vertex that is skipped has all
  its open descendants in front of it already. So a vertex `u` that leads to `w` is emitted
  before `w` exactly when it lies on the first path of the unfolding that ends in `w`
  (`schedule_precedes_iff`).
-/
import BuxnLs.Lib.Digraph

namespace BuxnLs.Lib

open Relation

section Preorder

variable {ν : Type} [DecidableEq ν]

/-! ## First occurrences -/

theorem eraseDups_concat (t : List ν) (v : ν) :
    (t ++ [v]).eraseDups = if v ∈ t then t.eraseDups else t.eraseDups ++ [v] := by
  rw [List.eraseDups_append]
  by_cases h : v ∈ t
  · simp [List.removeAll, h]
  · simp [List.removeAll, h, List.eraseDups_cons]

theorem eraseDups_append_of_subset {t l : List ν} (h : ∀ x ∈ l, x ∈ t) :
    (t ++ l).eraseDups = t.eraseDups := by
  have hnone : l.removeAll t = [] := by
    simpa [List.removeAll, List.filter_eq_nil_iff] using h
  rw [List.eraseDups_append, hnone, List.eraseDups_nil, List.append_nil]

theorem nodup_eraseDups (l : List ν) : l.eraseDups.Nodup := by
  induction l using List.reverseRecOn with
  | nil => simp
  | append_singleton t v ih =>
      rw [eraseDups_concat]
      split
      · exact ih
      · rename_i hv
        refine List.Nodup.append ih (List.nodup_singleton v) ?_
        simpa using hv

/-- What comes before `w` among the first occurrences came before its first occurrence. -/
theorem sublist_eraseDups_iff {before after : List ν} {u w : ν} (hw : w ∉ before) (hu : u ≠ w) :
    List.Sublist [u, w] (before ++ w :: after).eraseDups ↔ u ∈ before := by
  have hsplit : ∃ rest, (before ++ w :: after).eraseDups = before.eraseDups ++ w :: rest := by
    rw [List.eraseDups_append, List.cons_removeAll]
    simp only [List.contains_eq_mem, hw, decide_false, if_true]
    exact ⟨_, congrArg _ List.eraseDups_cons⟩
  obtain ⟨rest, hrest⟩ := hsplit
  have hnodup := nodup_eraseDups (before ++ w :: after)
  rw [hrest] at hnodup ⊢
  have hnot : w ∉ rest := (List.nodup_cons.mp (List.nodup_append.mp hnodup).2.1).1
  constructor
  · intro h
    obtain ⟨l₁, l₂, heq, h₁, h₂⟩ := List.sublist_append_iff.mp h
    cases l₁ with
    | nil =>
        obtain rfl : [u, w] = l₂ := heq
        have h₂ : List.Sublist [u, w] rest := h₂.of_cons_of_ne hu
        exact absurd (h₂.subset (by simp)) hnot
    | cons x l₁ =>
        obtain rfl : u = x := (List.cons.inj heq).1
        exact List.mem_eraseDups.mp (h₁.subset List.mem_cons_self)
  · intro h
    have hmem : u ∈ before.eraseDups := List.mem_eraseDups.mpr h
    exact (List.singleton_sublist.mpr hmem).append
      ((List.nil_sublist rest).cons_cons w)

/-! ## The unfolded graph -/

/-- The preorder of the tree that the graph unfolds to below a vertex, cut at a depth. -/
def preorder (g : Digraph ν) : Nat → ν → List ν
  | 0, _ => []
  | fuel + 1, v => v :: (g.outEdges v).flatMap (preorder g fuel)

/-- The path to the first occurrence of `w` in the unfolding below `v`. -/
def firstPath (g : Digraph ν) : Nat → ν → ν → Option (List ν)
  | 0, _, _ => none
  | fuel + 1, v, w =>
    if v = w then some [v]
    else ((g.outEdges v).findSome? fun c => firstPath g fuel c w).map (v :: ·)

/-- The vertices without predecessors that a climb from `v` ends in. -/
def rootsFrom (g : Digraph ν) : Nat → ν → List ν
  | 0, _ => []
  | fuel + 1, v =>
    match g.inEdges v with
    | [] => [v]
    | w :: ws => (w :: ws).flatMap (rootsFrom g fuel)

variable {g : Digraph ν}

theorem leads_of_mem_preorder {fuel : Nat} {v w : ν} (h : w ∈ preorder g fuel v) :
    ReflTransGen g.Adj v w := by
  induction fuel generalizing v with
  | zero => cases h
  | succ fuel ih =>
      rcases List.mem_cons.mp h with rfl | h
      · exact .refl
      · obtain ⟨c, hc, h⟩ := List.mem_flatMap.mp h
        exact .head ((g.mem_outEdges v c).mp hc) (ih h)

/-- A depth that the rank bounds cuts nothing off. -/
theorem mem_preorder_of_leads (hg : g.Acyclic) {fuel : Nat} {v w : ν} (hf : g.rank v < fuel)
    (h : ReflTransGen g.Adj v w) : w ∈ preorder g fuel v := by
  induction fuel generalizing v with
  | zero => omega
  | succ fuel ih =>
      rcases ReflTransGen.cases_head h with rfl | ⟨c, hc, h⟩
      · exact List.mem_cons_self
      · have hlt := Digraph.rank_lt hg hc
        have hmem : w ∈ preorder g fuel c := ih (by omega) h
        exact List.mem_cons_of_mem v
          (List.mem_flatMap.mpr ⟨c, (g.mem_outEdges v c).mpr hc, hmem⟩)

theorem exists_root (hg : g.Acyclic) {fuel : Nat} {v : ν} (hf : g.reverse.rank v < fuel) :
    ∃ r ∈ rootsFrom g fuel v, ReflTransGen g.Adj r v := by
  induction fuel generalizing v with
  | zero => omega
  | succ fuel ih =>
      unfold rootsFrom
      split
      · exact ⟨v, List.mem_singleton_self v, .refl⟩
      · rename_i w ws hup
        have hadj : g.Adj w v := (g.mem_inEdges w v).mp (hup ▸ List.mem_cons_self)
        have hlt := Digraph.rank_lt hg.reverse ((g.adj_reverse v w).mpr hadj)
        obtain ⟨r, hr, hleads⟩ := ih (v := w) (by omega)
        exact ⟨r, List.mem_flatMap.mpr ⟨w, List.mem_cons_self, hr⟩, hleads.tail hadj⟩

/-- The first occurrence of `w` below `v`: of the vertices that lead to `w`, those on the path
    to it come before it and no others. -/
def FirstAt (g : Digraph ν) (l : List ν) (w : ν) (path : Option (List ν)) : Prop :=
  ∃ before after p, l = before ++ w :: after ∧ w ∉ before ∧ path = some p ∧
    ∀ u, u ≠ w → ReflTransGen g.Adj u w → (u ∈ before ↔ u ∈ p)

theorem firstPath_of_not_mem {fuel : Nat} {v w : ν} (h : w ∉ preorder g fuel v) :
    firstPath g fuel v w = none := by
  induction fuel generalizing v with
  | zero => rfl
  | succ fuel ih =>
      simp only [preorder, List.mem_cons, List.mem_flatMap, not_or, not_exists, not_and] at h
      unfold firstPath
      rw [if_neg (Ne.symm h.1), Option.map_eq_none_iff, List.findSome?_eq_none_iff]
      exact fun c hc => ih (h.2 c hc)

/-- Along a list of trees, the first that has `w` decides. -/
theorem firstAt_flatMap (hg : g.Acyclic) {fuel : Nat} {w : ν} (vs : List ν)
    (hfirst : ∀ v ∈ vs, w ∈ preorder g fuel v →
      FirstAt g (preorder g fuel v) w (firstPath g fuel v w))
    (hf : ∀ v ∈ vs, g.rank v < fuel) (hw : w ∈ vs.flatMap (preorder g fuel)) :
    FirstAt g (vs.flatMap (preorder g fuel)) w (vs.findSome? fun v => firstPath g fuel v w) := by
  induction vs with
  | nil => cases hw
  | cons v vs ih =>
      rw [List.flatMap_cons, List.findSome?_cons]
      by_cases hv : w ∈ preorder g fuel v
      · obtain ⟨before, after, p, hl, hnot, hp, hbefore⟩ :=
          hfirst v List.mem_cons_self hv
        refine ⟨before, after ++ vs.flatMap (preorder g fuel), p, ?_, hnot, ?_, hbefore⟩
        · rw [hl, List.append_assoc, List.cons_append]
        · rw [hp]
      · have hw' : w ∈ vs.flatMap (preorder g fuel) := by
          rw [List.flatMap_cons, List.mem_append] at hw
          exact hw.resolve_left hv
        obtain ⟨before, after, p, hl, hnot, hp, hbefore⟩ :=
          ih (fun v hm => hfirst v (List.mem_cons_of_mem _ hm))
            (fun v hm => hf v (List.mem_cons_of_mem _ hm)) hw'
        refine ⟨preorder g fuel v ++ before, after, p, ?_, ?_, ?_, fun u hu hleads => ?_⟩
        · rw [hl, List.append_assoc]
        · exact List.mem_append.not.mpr (not_or.mpr ⟨hv, hnot⟩)
        · rw [firstPath_of_not_mem hv, hp]
        · -- a tree that has `u` has `w` below it
          have hout : u ∉ preorder g fuel v := fun hm =>
            hv (mem_preorder_of_leads hg (hf v List.mem_cons_self)
              ((leads_of_mem_preorder hm).trans hleads))
          rw [List.mem_append, or_iff_right hout]
          exact hbefore u hu hleads

theorem firstAt_preorder (hg : g.Acyclic) {fuel : Nat} {v w : ν} (hf : g.rank v < fuel)
    (hw : w ∈ preorder g fuel v) : FirstAt g (preorder g fuel v) w (firstPath g fuel v w) := by
  induction fuel generalizing v with
  | zero => omega
  | succ fuel ih =>
      unfold preorder firstPath
      by_cases hv : v = w
      · subst hv
        refine ⟨[], _, [v], rfl, List.not_mem_nil, if_pos rfl, fun u hu _ => ?_⟩
        simp [hu]
      · have hrank : ∀ c ∈ g.outEdges v, g.rank c < fuel := fun c hc => by
          have := Digraph.rank_lt hg ((g.mem_outEdges v c).mp hc)
          omega
        have hw' : w ∈ (g.outEdges v).flatMap (preorder g fuel) :=
          (List.mem_cons.mp hw).resolve_left (Ne.symm hv)
        obtain ⟨before, after, p, hl, hnot, hp, hbefore⟩ :=
          firstAt_flatMap hg _ (fun c hc hm => ih (hrank c hc) hm) hrank hw'
        refine ⟨v :: before, after, v :: p, ?_, ?_, ?_, fun u hu hleads => ?_⟩
        · rw [hl, List.cons_append]
        · simp [Ne.symm hv, hnot]
        · rw [if_neg hv, hp, Option.map_some]
        · rw [List.mem_cons, List.mem_cons, hbefore u hu hleads]

/-! ## The walk -/

variable (isOpen : ν → Bool)

def emit (s : List ν) (v : ν) : List ν × Bool :=
  if v ∈ s then (s, false) else if isOpen v then (s ++ [v], true) else (s, true)

def walk (g : Digraph ν) : Nat → List ν → ν → Option (List ν) := descend g.outEdges (emit isOpen)

variable {isOpen}

/-- What is emitted below `v` has all its open descendants emitted. -/
def ClosedBelow (g : Digraph ν) (isOpen : ν → Bool) (t : List ν) (v : ν) : Prop :=
  ∀ x ∈ t, ReflTransGen g.Adj v x → ∀ y, ReflTransGen g.Adj x y → isOpen y = true → y ∈ t

/-- `s` is the output `t` followed by what is new in `l`; the open descendants of `roots` are all
    in it. -/
structure Walked (g : Digraph ν) (isOpen : ν → Bool) (t s l roots : List ν) : Prop where
  eq : s = (t ++ l.filter isOpen).eraseDups
  covers : ∀ v ∈ roots, ∀ w, ReflTransGen g.Adj v w → isOpen w = true → w ∈ s

theorem Walked.keeps {t s l roots : List ν} (h : Walked g isOpen t s l roots) {x : ν}
    (hx : x ∈ t) : x ∈ s := by
  rw [h.eq, List.mem_eraseDups]
  exact List.mem_append_left _ hx

theorem Walked.append {t s s' l l' rs rs' : List ν} (h : Walked g isOpen t s l rs)
    (h' : Walked g isOpen (t ++ l.filter isOpen) s' l' rs') :
    Walked g isOpen t s' (l ++ l') (rs ++ rs') := by
  refine ⟨?_, fun v hv w hleads hopen => ?_⟩
  · rw [h'.eq, List.filter_append, List.append_assoc]
  · rcases List.mem_append.mp hv with hv | hv
    · have hmem := h.covers v hv w hleads hopen
      rw [h.eq, List.mem_eraseDups] at hmem
      exact h'.keeps hmem
    · exact h'.covers v hv w hleads hopen

/-- What was walked is closed below every vertex, like what was there. -/
theorem Walked.closedBelow {t s l roots : List ν} (h : Walked g isOpen t s l roots)
    (hl : ∀ x ∈ l, ∃ r ∈ roots, ReflTransGen g.Adj r x) {w : ν}
    (hw : ClosedBelow g isOpen t w) : ClosedBelow g isOpen (t ++ l.filter isOpen) w := by
  intro x hx hleads y hy hopen
  rcases List.mem_append.mp hx with hx | hx
  · exact List.mem_append_left _ (hw x hx hleads y hy hopen)
  · obtain ⟨r, hr, hrx⟩ := hl x (List.mem_filter.mp hx).1
    have hmem := h.covers r hr y (hrx.trans hy) hopen
    exact List.mem_eraseDups.mp (h.eq ▸ hmem)

theorem walks_of_walk {fuel : Nat} (vs : List ν)
    (hwalk : ∀ v ∈ vs, ∀ t s, ClosedBelow g isOpen t v →
      walk isOpen g fuel t.eraseDups v = some s →
      Walked g isOpen t s (preorder g fuel v) [v]) {t s : List ν}
    (ht : ∀ v ∈ vs, ClosedBelow g isOpen t v)
    (h : vs.foldlM (walk isOpen g fuel) t.eraseDups = some s) :
    Walked g isOpen t s (vs.flatMap (preorder g fuel)) vs := by
  induction vs generalizing t with
  | nil =>
      obtain rfl := Option.some.inj h
      exact ⟨by simp, fun v hv => absurd hv List.not_mem_nil⟩
  | cons v vs ih =>
      rw [List.foldlM_cons, Option.bind_eq_bind, Option.bind_eq_some_iff] at h
      obtain ⟨s₁, h₁, h⟩ := h
      have hv := hwalk v List.mem_cons_self t s₁ (ht v List.mem_cons_self) h₁
      have hbelow : ∀ x ∈ preorder g fuel v, ∃ r ∈ [v], ReflTransGen g.Adj r x :=
        fun x hx => ⟨v, List.mem_singleton_self v, leads_of_mem_preorder hx⟩
      rw [hv.eq] at h
      have hrest := ih (fun v hm => hwalk v (List.mem_cons_of_mem _ hm))
        (fun w hm => hv.closedBelow hbelow (ht w (List.mem_cons_of_mem _ hm))) h
      rw [List.flatMap_cons]
      exact hv.append hrest

/-- A vertex that was emitted has nothing new below it. -/
theorem walked_of_mem {t : List ν} {v : ν} (ht : ClosedBelow g isOpen t v) (hv : v ∈ t)
    (fuel : Nat) : Walked g isOpen t t.eraseDups (preorder g fuel v) [v] := by
  have hbelow : ∀ w, ReflTransGen g.Adj v w → isOpen w = true → w ∈ t :=
    fun w hleads hopen => ht v hv .refl w hleads hopen
  refine ⟨(eraseDups_append_of_subset fun x hx => ?_).symm, fun x hx w hleads hopen => ?_⟩
  · obtain ⟨hx, hopen⟩ := List.mem_filter.mp hx
    exact hbelow x (leads_of_mem_preorder hx) hopen
  · obtain rfl := List.mem_singleton.mp hx
    exact List.mem_eraseDups.mpr (hbelow w hleads hopen)

/-- A new vertex is followed by what is below its children. -/
theorem walked_of_children (hg : g.Acyclic) {fuel : Nat} {t s : List ν} {v : ν}
    (ht : ClosedBelow g isOpen t v)
    (hwalk : ∀ c ∈ g.outEdges v, ∀ t s, ClosedBelow g isOpen t c →
      walk isOpen g fuel t.eraseDups c = some s →
      Walked g isOpen t s (preorder g fuel c) [c])
    (h : (g.outEdges v).foldlM (walk isOpen g fuel) (t ++ [v].filter isOpen).eraseDups =
      some s) : Walked g isOpen t s (preorder g (fuel + 1) v) [v] := by
  -- below a child `v` does not come again
  have hbelow : ∀ c ∈ g.outEdges v, ClosedBelow g isOpen (t ++ [v].filter isOpen) c := by
    intro c hc x hx hleads y hy hopen
    have hvc : g.Adj v c := (g.mem_outEdges v c).mp hc
    rcases List.mem_append.mp hx with hx | hx
    · exact List.mem_append_left _ (ht x hx (.head hvc hleads) y hy hopen)
    · obtain rfl : x = v := List.mem_singleton.mp (List.mem_filter.mp hx).1
      exact absurd (TransGen.head' hvc hleads) (hg x)
  have hw := walks_of_walk _ hwalk hbelow h
  refine ⟨?_, fun x hx w hleads hopen => ?_⟩
  · rw [hw.eq, preorder, List.append_assoc, ← List.filter_append, List.singleton_append]
  · obtain rfl := List.mem_singleton.mp hx
    rcases ReflTransGen.cases_head hleads with rfl | ⟨c, hc, hleads⟩
    · exact hw.keeps (List.mem_append_right _ (by simpa using hopen))
    · exact hw.covers c ((g.mem_outEdges x c).mpr hc) w hleads hopen

theorem walk_walked (hg : g.Acyclic) {fuel : Nat} {t s : List ν} {v : ν}
    (ht : ClosedBelow g isOpen t v) (h : walk isOpen g fuel t.eraseDups v = some s) :
    Walked g isOpen t s (preorder g fuel v) [v] := by
  induction fuel generalizing t s v with
  | zero => cases h
  | succ fuel ih =>
      unfold walk descend emit at h
      by_cases hv : v ∈ t
      · rw [if_pos (List.mem_eraseDups.mpr hv)] at h
        obtain rfl : t.eraseDups = s := Option.some.inj h
        exact walked_of_mem ht hv (fuel + 1)
      · rw [if_neg (List.mem_eraseDups.not.mpr hv)] at h
        refine walked_of_children hg ht (fun c _ t s => ih) ?_
        by_cases hopen : isOpen v = true
        · rw [if_pos hopen] at h
          rw [List.filter_cons_of_pos hopen, List.filter_nil, eraseDups_concat, if_neg hv]
          exact h
        · rw [if_neg hopen] at h
          rw [List.filter_cons_of_neg hopen, List.filter_nil, List.append_nil]
          exact h

/-- Walking several vertices emits the first occurrences of their unfoldings. -/
theorem walks_walked (hg : g.Acyclic) {fuel : Nat} {vs t s : List ν}
    (ht : ∀ v ∈ vs, ClosedBelow g isOpen t v)
    (h : vs.foldlM (walk isOpen g fuel) t.eraseDups = some s) :
    Walked g isOpen t s (vs.flatMap (preorder g fuel)) vs :=
  walks_of_walk vs (fun _ _ _ _ => walk_walked hg) ht h

theorem foldlM_flatMap {σ α β : Type} {f : σ → α → Option σ} {leaf : σ → β → Option σ}
    {roots : α → List β}
    (hf : ∀ s s' v, f s v = some s' → (roots v).foldlM leaf s = some s') (vs : List α)
    {s s' : σ} (h : vs.foldlM f s = some s') : (vs.flatMap roots).foldlM leaf s = some s' := by
  induction vs generalizing s with
  | nil => exact h
  | cons v vs ih =>
      rw [List.foldlM_cons, Option.bind_eq_bind, Option.bind_eq_some_iff] at h
      obtain ⟨s₁, h₁, h⟩ := h
      rw [List.flatMap_cons, List.foldlM_append, hf s s₁ v h₁]
      exact ih h

/-- To climb from `v` is to visit its roots in turn. -/
theorem foldlM_of_climb {σ : Type} {leaf : σ → ν → Option σ} {fuel : Nat} {s s' : σ} {v : ν}
    (h : climb g.inEdges leaf fuel s v = some s') :
    (rootsFrom g fuel v).foldlM leaf s = some s' := by
  induction fuel generalizing s s' v with
  | zero => cases h
  | succ fuel ih =>
      cases hup : g.inEdges v with
      | nil =>
          simp only [climb, hup] at h
          simp only [rootsFrom, hup, List.foldlM_cons, h, List.foldlM_nil, Option.bind_eq_bind,
            Option.bind_some, Option.pure_def]
      | cons w ws =>
          simp only [climb, hup] at h
          simp only [rootsFrom, hup]
          have hup' : ∀ s s' w, climb g.inEdges leaf fuel s w = some s' →
              (rootsFrom g fuel w).foldlM leaf s = some s' := fun _ _ _ => ih
          exact foldlM_flatMap hup' (w :: ws) h

/-! ## From a list of vertices -/

/-- Climb from `d` and walk from the roots found, unless `d` is in the output. -/
def scheduleFrom (isOpen : ν → Bool) (g : Digraph ν) (fuel : Nat) (s : List ν) (d : ν) :
    Option (List ν) :=
  if d ∈ s then some s else climb g.inEdges (walk isOpen g fuel) fuel s d

/-- The roots of `ds` in order, without those of a vertex that earlier roots lead to. -/
def walkedRoots (g : Digraph ν) (fuel : Nat) (ds : List ν) : List ν :=
  ds.foldl (fun rs d =>
    if d ∈ rs.flatMap (preorder g fuel) then rs else rs ++ rootsFrom g fuel d) []

/-- The path on which `w` is first met from the roots of `ds`. -/
def meetingPath (g : Digraph ν) (fuel : Nat) (ds : List ν) (w : ν) : Option (List ν) :=
  (walkedRoots g fuel ds).findSome? fun r => firstPath g fuel r w

theorem walkedRoots_concat (fuel : Nat) (ds : List ν) (d : ν) :
    walkedRoots g fuel (ds ++ [d]) =
      if d ∈ (walkedRoots g fuel ds).flatMap (preorder g fuel) then walkedRoots g fuel ds
      else walkedRoots g fuel ds ++ rootsFrom g fuel d := by
  rw [walkedRoots, List.foldl_append]
  rfl

/-- One more vertex is in the schedule, or its roots are walked. -/
theorem scheduleFrom_walked (hg : g.Acyclic) {fuel : Nat} (hf : g.edges.length < fuel)
    {ds s s' : List ν} {d : ν}
    (hw : Walked g isOpen [] s ((walkedRoots g fuel ds).flatMap (preorder g fuel))
      (walkedRoots g fuel ds)) (hd : isOpen d = true)
    (h : scheduleFrom isOpen g fuel s d = some s') :
    Walked g isOpen [] s' ((walkedRoots g fuel (ds ++ [d])).flatMap (preorder g fuel))
        (walkedRoots g fuel (ds ++ [d])) ∧
      (∀ x ∈ s, x ∈ s') ∧ d ∈ s' := by
  have hmem : d ∈ s ↔ d ∈ (walkedRoots g fuel ds).flatMap (preorder g fuel) := by
    rw [hw.eq, List.mem_eraseDups, List.nil_append, List.mem_filter, and_iff_left hd]
  unfold scheduleFrom at h
  rw [walkedRoots_concat]
  split at h
  · rename_i hin
    obtain rfl := Option.some.inj h
    rw [if_pos (hmem.mp hin)]
    exact ⟨hw, fun _ hx => hx, hin⟩
  · rename_i hout
    rw [if_neg (fun hc => hout (hmem.mpr hc)), List.flatMap_append]
    have hroots := foldlM_of_climb h
    rw [hw.eq] at hroots
    have hbelow : ∀ x ∈ (walkedRoots g fuel ds).flatMap (preorder g fuel),
        ∃ r ∈ walkedRoots g fuel ds, ReflTransGen g.Adj r x := by
      intro x hx
      obtain ⟨r, hr, hx⟩ := List.mem_flatMap.mp hx
      exact ⟨r, hr, leads_of_mem_preorder hx⟩
    have hnew := walks_walked hg
      (fun v _ => hw.closedBelow hbelow fun x hx => absurd hx List.not_mem_nil) hroots
    refine ⟨hw.append hnew, fun x hx => hnew.keeps ?_, ?_⟩
    · rwa [hw.eq, List.mem_eraseDups] at hx
    · have hrank : g.reverse.rank d < fuel := by
        have hlen : g.reverse.edges.length = g.edges.length := List.length_map _
        have := g.reverse.rank_le d
        omega
      obtain ⟨r, hr, hleads⟩ := exists_root hg hrank
      exact hnew.covers r hr d hleads hd

theorem schedule_walked (hg : g.Acyclic) {fuel : Nat} (hf : g.edges.length < fuel)
    (ds : List ν) (hopen : ∀ d ∈ ds, isOpen d = true) {s : List ν}
    (h : ds.foldlM (scheduleFrom isOpen g fuel) [] = some s) :
    Walked g isOpen [] s ((walkedRoots g fuel ds).flatMap (preorder g fuel))
        (walkedRoots g fuel ds) ∧ ∀ d ∈ ds, d ∈ s := by
  induction ds using List.reverseRecOn generalizing s with
  | nil =>
      obtain rfl := Option.some.inj h
      exact ⟨⟨rfl, fun v hv => absurd hv List.not_mem_nil⟩, fun d hd => hd⟩
  | append_singleton ds d ih =>
      rw [List.foldlM_append, Option.bind_eq_bind, Option.bind_eq_some_iff] at h
      obtain ⟨s₁, h₁, h⟩ := h
      have h : scheduleFrom isOpen g fuel s₁ d = some s := by simpa using h
      obtain ⟨hw, hall⟩ := ih (fun x hx => hopen x (List.mem_append_left _ hx)) h₁
      have hd : isOpen d = true := hopen d (List.mem_append_right _ (List.mem_singleton_self d))
      obtain ⟨hw', hold, hnew⟩ := scheduleFrom_walked hg hf hw hd h
      refine ⟨hw', fun x hx => ?_⟩
      rcases List.mem_append.mp hx with hx | hx
      · exact hold x (hall x hx)
      · exact List.mem_singleton.mp hx ▸ hnew

/-- The schedule, read off the unfolding: the open vertices below the roots, each where it first
    occurs. -/
theorem schedule_eq (hg : g.Acyclic) {fuel : Nat} (hf : g.edges.length < fuel) {ds s : List ν}
    (hopen : ∀ d ∈ ds, isOpen d = true)
    (h : ds.foldlM (scheduleFrom isOpen g fuel) [] = some s) :
    s = (((walkedRoots g fuel ds).flatMap (preorder g fuel)).filter isOpen).eraseDups :=
  (schedule_walked hg hf ds hopen h).1.eq

/-- An open vertex that leads to `w` is scheduled before `w` exactly when it lies on the path on
    which `w` is first met. -/
theorem schedule_precedes_iff (hg : g.Acyclic) {fuel : Nat} (hf : g.edges.length < fuel)
    {ds s : List ν} (hopen : ∀ d ∈ ds, isOpen d = true)
    (h : ds.foldlM (scheduleFrom isOpen g fuel) [] = some s) {u w : ν}
    (hleads : TransGen g.Adj u w) (hu : isOpen u = true) (hw : isOpen w = true) (hs : w ∈ s) :
    List.Sublist [u, w] s ↔ ∃ path, meetingPath g fuel ds w = some path ∧ u ∈ path := by
  have hne : u ≠ w := fun he => hg w (he ▸ hleads)
  have hrank : ∀ v, g.rank v < fuel := fun v => lt_of_le_of_lt (g.rank_le v) hf
  have heq := schedule_eq hg hf hopen h
  have hmem : w ∈ (walkedRoots g fuel ds).flatMap (preorder g fuel) := by
    rw [heq, List.mem_eraseDups, List.mem_filter] at hs
    exact hs.1
  obtain ⟨before, after, p, hl, hnot, hp, hbefore⟩ :=
    firstAt_flatMap hg _ (fun v _ => firstAt_preorder hg (hrank v)) (fun v _ => hrank v) hmem
  have hnot' : w ∉ before.filter isOpen := fun hm => hnot (List.mem_filter.mp hm).1
  calc List.Sublist [u, w] s
      ↔ List.Sublist [u, w] (before.filter isOpen ++ w :: after.filter isOpen).eraseDups := by
        rw [heq, hl, List.filter_append, List.filter_cons_of_pos hw]
    _ ↔ u ∈ before := by
        rw [sublist_eraseDups_iff hnot' hne, List.mem_filter, and_iff_left hu]
    _ ↔ u ∈ p := hbefore u hne hleads.to_reflTransGen
    _ ↔ ∃ path, meetingPath g fuel ds w = some path ∧ u ∈ path := by
        unfold meetingPath
        rw [hp]
        simp

end Preorder

end BuxnLs.Lib
