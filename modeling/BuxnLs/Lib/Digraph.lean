/-
  Directed graphs that only grow by `addEdge`, and depth-first recursions over them that keep
  no visited marks. `acyclic_addEdge`: an edge out of a vertex without incoming edges closes no
  cycle. `descend` and `climb` run on fuel and return `none` when it runs out; on an acyclic
  graph `g` the fuel `g.edges.length + 1` is always enough (`descend_isSome`, `climb_isSome`).
-/
import Mathlib.Data.Finset.Card
import Mathlib.Data.List.Basic
import Mathlib.Logic.Relation

namespace BuxnLs.Lib

open Relation

/-- A directed graph as its edges `(from, to)`, newest first. -/
structure Digraph (ν : Type) where
  edges : List (ν × ν)

namespace Digraph

variable {ν : Type}

def empty : Digraph ν := ⟨[]⟩

def addEdge (g : Digraph ν) (a b : ν) : Digraph ν := ⟨(a, b) :: g.edges⟩

def reverse (g : Digraph ν) : Digraph ν := ⟨g.edges.map Prod.swap⟩

def Adj (g : Digraph ν) (a b : ν) : Prop := (a, b) ∈ g.edges

def Acyclic (g : Digraph ν) : Prop := ∀ a, ¬ TransGen g.Adj a a

theorem not_adj_empty (a b : ν) : ¬ (empty : Digraph ν).Adj a b := by
  simp [Adj, empty]

theorem adj_addEdge (g : Digraph ν) (a b x y : ν) :
    (g.addEdge a b).Adj x y ↔ (x = a ∧ y = b) ∨ g.Adj x y := by
  simp [Adj, addEdge]

theorem adj_reverse (g : Digraph ν) (a b : ν) : g.reverse.Adj a b ↔ g.Adj b a := by
  simp only [Adj, reverse, List.mem_map]
  constructor
  · rintro ⟨⟨x, y⟩, h, he⟩
    cases he
    exact h
  · intro h
    exact ⟨(b, a), h, rfl⟩

section Lists

variable [DecidableEq ν]

/-- The targets of the edges out of `a`, newest first. -/
def outEdges (g : Digraph ν) (a : ν) : List ν :=
  g.edges.filterMap fun e => if e.1 = a then some e.2 else none

/-- The sources of the edges into `b`, newest first. -/
def inEdges (g : Digraph ν) (b : ν) : List ν :=
  g.edges.filterMap fun e => if e.2 = b then some e.1 else none

@[simp] theorem mem_outEdges (g : Digraph ν) (a b : ν) : b ∈ g.outEdges a ↔ g.Adj a b := by
  simp only [outEdges, List.mem_filterMap, Adj]
  constructor
  · rintro ⟨⟨x, y⟩, h, he⟩
    obtain ⟨rfl, rfl⟩ : x = a ∧ y = b := by simpa using he
    exact h
  · intro h
    exact ⟨(a, b), h, by simp⟩

@[simp] theorem mem_inEdges (g : Digraph ν) (a b : ν) : a ∈ g.inEdges b ↔ g.Adj a b := by
  simp only [inEdges, List.mem_filterMap, Adj]
  constructor
  · rintro ⟨⟨x, y⟩, h, he⟩
    obtain ⟨rfl, rfl⟩ : y = b ∧ x = a := by simpa using he
    exact h
  · intro h
    exact ⟨(a, b), h, by simp⟩

theorem outEdges_addEdge (g : Digraph ν) (a b c : ν) :
    (g.addEdge a b).outEdges c = if a = c then b :: g.outEdges c else g.outEdges c := by
  by_cases h : a = c <;> simp [outEdges, addEdge, h]

theorem inEdges_addEdge (g : Digraph ν) (a b c : ν) :
    (g.addEdge a b).inEdges c = if b = c then a :: g.inEdges c else g.inEdges c := by
  by_cases h : b = c <;> simp [inEdges, addEdge, h]

end Lists

/-! ## Acyclicity -/

theorem acyclic_empty : (empty : Digraph ν).Acyclic := by
  intro a h
  cases h with
  | single h => exact not_adj_empty _ _ h
  | tail _ h => exact not_adj_empty _ _ h

theorem transGen_reverse {g : Digraph ν} {a b : ν} (h : TransGen g.reverse.Adj a b) :
    TransGen g.Adj b a := by
  induction h with
  | single h => exact .single ((g.adj_reverse _ _).mp h)
  | tail _ h ih => exact .head ((g.adj_reverse _ _).mp h) ih

theorem Acyclic.reverse {g : Digraph ν} (h : g.Acyclic) : g.reverse.Acyclic :=
  fun a hc => h a (transGen_reverse hc)

/-- An edge out of a vertex that no edge enters closes no cycle. -/
theorem acyclic_addEdge {g : Digraph ν} {a b : ν} (hg : g.Acyclic) (hin : ∀ c, ¬ g.Adj c a)
    (hne : a ≠ b) : (g.addEdge a b).Acyclic := by
  -- no edge of the new graph enters `a`
  have hin' : ∀ c, ¬ (g.addEdge a b).Adj c a := by
    intro c hc
    rcases (adj_addEdge g a b c a).mp hc with ⟨-, hab⟩ | hc
    · exact hne hab
    · exact hin c hc
  have hend : ∀ {x y}, TransGen (g.addEdge a b).Adj x y → y ≠ a := by
    rintro x y h rfl
    cases h with
    | single h => exact hin' _ h
    | tail _ h => exact hin' _ h
  have hold : ∀ {x y}, (g.addEdge a b).Adj x y → x ≠ a → g.Adj x y := by
    intro x y h hx
    exact ((adj_addEdge g a b x y).mp h).resolve_left fun hc => hx hc.1
  -- so a path that does not start at `a` never takes the new edge
  have hpath : ∀ {x y}, TransGen (g.addEdge a b).Adj x y → x ≠ a → TransGen g.Adj x y := by
    intro x y h hx
    induction h with
    | single h => exact .single (hold h hx)
    | tail hxy h ih => exact .tail ih (hold h (hend hxy))
  intro c hc
  exact hg c (hpath hc (hend hc))

/-! ## A rank for acyclic graphs -/

open Classical in
/-- The number of vertices reachable from `a`. -/
noncomputable def rank (g : Digraph ν) (a : ν) : Nat :=
  ((g.edges.map Prod.snd).toFinset.filter fun b => TransGen g.Adj a b).card

theorem rank_le (g : Digraph ν) (a : ν) : g.rank a ≤ g.edges.length := by
  classical
  calc g.rank a ≤ (g.edges.map Prod.snd).toFinset.card := Finset.card_filter_le _ _
    _ ≤ (g.edges.map Prod.snd).length := List.toFinset_card_le _
    _ = g.edges.length := List.length_map _

theorem rank_lt {g : Digraph ν} (hg : g.Acyclic) {a b : ν} (h : g.Adj a b) :
    g.rank b < g.rank a := by
  classical
  refine Finset.card_lt_card (Finset.ssubset_iff_of_subset ?_ |>.mpr ⟨b, ?_, ?_⟩)
  · intro c hc
    obtain ⟨hm, hbc⟩ := Finset.mem_filter.mp hc
    exact Finset.mem_filter.mpr ⟨hm, .head h hbc⟩
  · refine Finset.mem_filter.mpr ⟨?_, .single h⟩
    exact List.mem_toFinset.mpr (List.mem_map.mpr ⟨(a, b), h, rfl⟩)
  · intro hb
    exact hg b (Finset.mem_filter.mp hb).2

end Digraph

/-! ## Recursions without a visited mark -/

section Traverse

variable {ν σ : Type}

/-- Preorder walk: `enter` updates the state and says whether to go on to the successors. -/
def descend (next : ν → List ν) (enter : σ → ν → σ × Bool) : Nat → σ → ν → Option σ
  | 0, _, _ => none
  | fuel + 1, s, v =>
    match enter s v with
    | (s, false) => some s
    | (s, true) => (next v).foldlM (descend next enter fuel) s

/-- Walk up to the vertices without predecessors and run `leaf` there. -/
def climb (up : ν → List ν) (leaf : σ → ν → Option σ) : Nat → σ → ν → Option σ
  | 0, _, _ => none
  | fuel + 1, s, v =>
    match up v with
    | [] => leaf s v
    | w :: ws => (w :: ws).foldlM (climb up leaf fuel) s

theorem foldlM_isSome {f : σ → ν → Option σ} {ws : List ν}
    (hf : ∀ s, ∀ w ∈ ws, (f s w).isSome) (s : σ) : (ws.foldlM f s).isSome := by
  induction ws generalizing s with
  | nil => rfl
  | cons w ws ih =>
      obtain ⟨s', hs'⟩ := Option.isSome_iff_exists.mp (hf s w (by simp))
      rw [List.foldlM_cons, hs', Option.bind_eq_bind, Option.bind_some]
      exact ih (fun s w hw => hf s w (by simp [hw])) s'

theorem foldlM_inv {P : σ → Prop} {f : σ → ν → Option σ} {ws : List ν}
    (hf : ∀ s s', ∀ w ∈ ws, P s → f s w = some s' → P s') {s s' : σ} (hs : P s)
    (h : ws.foldlM f s = some s') : P s' := by
  induction ws generalizing s with
  | nil =>
      obtain rfl : s = s' := by simpa using h
      exact hs
  | cons w ws ih =>
      rw [List.foldlM_cons, Option.bind_eq_bind, Option.bind_eq_some_iff] at h
      obtain ⟨t, ht, h⟩ := h
      exact ih (fun s s' w hw => hf s s' w (by simp [hw])) (hf _ _ w (by simp) hs ht) h

/-- A rank that drops along `next` bounds the depth. -/
theorem descend_isSome_of_rank (rank : ν → Nat) {next : ν → List ν} {enter : σ → ν → σ × Bool}
    (hr : ∀ v, ∀ w ∈ next v, rank w < rank v) (fuel : Nat) (s : σ) (v : ν)
    (hf : rank v < fuel) : (descend next enter fuel s v).isSome := by
  induction fuel generalizing s v with
  | zero => omega
  | succ fuel ih =>
      unfold descend
      split
      · rfl
      · refine foldlM_isSome (fun s w hw => ih s w ?_) _
        have := hr v w hw
        omega

theorem climb_isSome_of_rank (rank : ν → Nat) {up : ν → List ν} {leaf : σ → ν → Option σ}
    (hleaf : ∀ s v, (leaf s v).isSome) (hr : ∀ v, ∀ w ∈ up v, rank w < rank v) (fuel : Nat)
    (s : σ) (v : ν) (hf : rank v < fuel) : (climb up leaf fuel s v).isSome := by
  induction fuel generalizing s v with
  | zero => omega
  | succ fuel ih =>
      unfold climb
      split
      · exact hleaf s v
      · rename_i w ws hup
        refine foldlM_isSome (fun s x hx => ih s x ?_) _
        have := hr v x (hup ▸ hx)
        omega

theorem descend_inv {P : σ → Prop} {next : ν → List ν} {enter : σ → ν → σ × Bool}
    (he : ∀ s v, P s → P (enter s v).1) {fuel : Nat} {s s' : σ} {v : ν} (hs : P s)
    (h : descend next enter fuel s v = some s') : P s' := by
  induction fuel generalizing s s' v with
  | zero => simp [descend] at h
  | succ fuel ih =>
      have hP := he s v hs
      unfold descend at h
      split at h
      · rename_i t ht
        rw [ht] at hP
        exact Option.some.inj h ▸ hP
      · rename_i t ht
        rw [ht] at hP
        exact foldlM_inv (fun _ _ _ _ => ih) hP h

theorem climb_inv {P : σ → Prop} {up : ν → List ν} {leaf : σ → ν → Option σ}
    (hl : ∀ s s' v, P s → leaf s v = some s' → P s') {fuel : Nat} {s s' : σ} {v : ν} (hs : P s)
    (h : climb up leaf fuel s v = some s') : P s' := by
  induction fuel generalizing s s' v with
  | zero => simp [climb] at h
  | succ fuel ih =>
      unfold climb at h
      split at h
      · exact hl s s' v hs h
      · exact foldlM_inv (fun _ _ _ _ => ih) hs h

/-! ## Recursions on a view of the state

On the states with `P` and the vertices with `V`, `view` carries one recursion to another. -/

section View

variable {τ : Type} {view : σ → τ} {P : σ → Prop} {V : ν → Prop}

theorem foldlM_view {α : Type} {f : σ → α → Option σ} {f' : τ → α → Option τ} {ws : List α}
    (hf : ∀ s, ∀ w ∈ ws, P s →
      (f s w).map view = f' (view s) w ∧ ∀ s', f s w = some s' → P s') {s : σ} (hs : P s) :
    (ws.foldlM f s).map view = ws.foldlM f' (view s) ∧ ∀ s', ws.foldlM f s = some s' → P s' := by
  induction ws generalizing s with
  | nil => exact ⟨rfl, fun s' h => Option.some.inj h ▸ hs⟩
  | cons w ws ih =>
      obtain ⟨hview, hP⟩ := hf s w (by simp) hs
      rw [List.foldlM_cons, List.foldlM_cons, ← hview]
      cases hw : f s w with
      | none => exact ⟨rfl, fun s' h => absurd h (by simp)⟩
      | some t => exact ih (fun s w hw => hf s w (by simp [hw])) (hP t hw)

theorem descend_view {next : ν → List ν} {enter : σ → ν → σ × Bool} {enter' : τ → ν → τ × Bool}
    (hnext : ∀ v, V v → ∀ w ∈ next v, V w) (hP : ∀ s v, V v → P s → P (enter s v).1)
    (hview : ∀ s v, V v → P s → enter' (view s) v = (view (enter s v).1, (enter s v).2))
    (fuel : Nat) {s : σ} {v : ν} (hv : V v) (hs : P s) :
    (descend next enter fuel s v).map view = descend next enter' fuel (view s) v ∧
      ∀ s', descend next enter fuel s v = some s' → P s' := by
  induction fuel generalizing s v with
  | zero => exact ⟨rfl, fun s' h => absurd h (by simp [descend])⟩
  | succ fuel ih =>
      have hPv := hP s v hv hs
      have hvv := hview s v hv hs
      unfold descend
      rw [hvv]
      split
      · rename_i t ht
        rw [ht] at hPv ⊢
        exact ⟨rfl, fun s' h => Option.some.inj h ▸ hPv⟩
      · rename_i t ht
        rw [ht] at hPv ⊢
        exact foldlM_view (fun _ w hw => ih (hnext v hv w hw)) hPv

theorem climb_view {up : ν → List ν} {leaf : σ → ν → Option σ} {leaf' : τ → ν → Option τ}
    (hup : ∀ v, V v → ∀ w ∈ up v, V w)
    (hleaf : ∀ s v, V v → P s →
      (leaf s v).map view = leaf' (view s) v ∧ ∀ s', leaf s v = some s' → P s')
    (fuel : Nat) {s : σ} {v : ν} (hv : V v) (hs : P s) :
    (climb up leaf fuel s v).map view = climb up leaf' fuel (view s) v ∧
      ∀ s', climb up leaf fuel s v = some s' → P s' := by
  induction fuel generalizing s v with
  | zero => exact ⟨rfl, fun s' h => absurd h (by simp [climb])⟩
  | succ fuel ih =>
      unfold climb
      split
      · exact hleaf s v hv hs
      · rename_i w ws hchild
        exact foldlM_view (fun _ x hx => ih (hup v hv x (hchild ▸ hx))) hs

end View

variable [DecidableEq ν]

/-- Down the edges of an acyclic graph the fuel `edges + 1` is enough. -/
theorem descend_isSome {g : Digraph ν} (hg : g.Acyclic) (enter : σ → ν → σ × Bool) {fuel : Nat}
    (hf : g.edges.length < fuel) (s : σ) (v : ν) :
    (descend g.outEdges enter fuel s v).isSome := by
  refine descend_isSome_of_rank g.rank ?_ fuel s v (lt_of_le_of_lt (g.rank_le v) hf)
  intro v w hw
  exact Digraph.rank_lt hg ((g.mem_outEdges v w).mp hw)

/-- Up the edges of an acyclic graph the fuel `edges + 1` is enough. -/
theorem climb_isSome {g : Digraph ν} (hg : g.Acyclic) {leaf : σ → ν → Option σ}
    (hleaf : ∀ s v, (leaf s v).isSome) {fuel : Nat} (hf : g.edges.length < fuel) (s : σ) (v : ν) :
    (climb g.inEdges leaf fuel s v).isSome := by
  have hlen : g.reverse.edges.length = g.edges.length := List.length_map _
  refine climb_isSome_of_rank g.reverse.rank hleaf ?_ fuel s v
    (lt_of_le_of_lt (g.reverse.rank_le v) (hlen ▸ hf))
  intro v w hw
  exact Digraph.rank_lt hg.reverse ((g.adj_reverse v w).mpr ((g.mem_inEdges w v).mp hw))

end Traverse

end BuxnLs.Lib
