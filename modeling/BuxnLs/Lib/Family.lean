/-
  A climb to the vertices without predecessors followed by a descent from each of them, with no
  marks on the way. The vertices come in the order of `family`, once for every route: a route is a
  path up from the start and a path down from where it ends, and parallel edges make different
  routes. On an acyclic graph the recursion is the fold over `family` (`climb_eq_foldl`), and the
  vertices of `family` are those below a root above the start (`mem_family_iff`). There may be
  exponentially many of them; what they weigh together is found from one equation for each vertex
  (`total_family`).
-/
import BuxnLs.Lib.Arena
import BuxnLs.Lib.Preorder

namespace BuxnLs.Lib

open Relation

variable {ν σ : Type} {g : Digraph ν}

/-- `r` has no predecessor and leads to `v`. -/
structure Digraph.RootOf (g : Digraph ν) (r v : ν) : Prop where
  root : ∀ x, ¬ g.Adj x r
  leads : ReflTransGen g.Adj r v

theorem Digraph.RootOf.of_adj {r v w : ν} (h : g.RootOf r v) (hadj : g.Adj v w) :
    g.RootOf r w :=
  ⟨h.root, h.leads.tail hadj⟩

/-- A fold over vertices that each fold over a list is the fold over all of them. -/
theorem foldl_of_foldlM {F : σ → ν → Option σ} {f : σ → ν → σ} {below : ν → List ν}
    (hF : ∀ s t v, F s v = some t → t = (below v).foldl f s) (vs : List ν) {s t : σ}
    (h : vs.foldlM F s = some t) : t = (vs.flatMap below).foldl f s := by
  induction vs generalizing s with
  | nil => exact (Option.some.inj h).symm
  | cons v vs ih =>
      rw [List.foldlM_cons, Option.bind_eq_bind, Option.bind_eq_some_iff] at h
      obtain ⟨s₁, h₁, h⟩ := h
      rw [List.flatMap_cons, List.foldl_append, ← hF s s₁ v h₁]
      exact ih h

variable [DecidableEq ν]

/-- The vertices met from `v`, once for each route. -/
def family (g : Digraph ν) (fuel : Nat) (v : ν) : List ν :=
  (rootsFrom g fuel v).flatMap (preorder g fuel)

theorem rootOf_of_mem {fuel : Nat} {r v : ν} (h : r ∈ rootsFrom g fuel v) : g.RootOf r v := by
  induction fuel generalizing v with
  | zero => cases h
  | succ fuel ih =>
      unfold rootsFrom at h
      split at h
      · rename_i hup
        obtain rfl := List.mem_singleton.mp h
        refine ⟨fun x hx => ?_, .refl⟩
        have hmem := (g.mem_inEdges x r).mpr hx
        rw [hup] at hmem
        cases hmem
      · rename_i w ws hup
        obtain ⟨x, hx, h⟩ := List.mem_flatMap.mp h
        exact (ih h).of_adj ((g.mem_inEdges x v).mp (hup ▸ hx))

/-- The depth that the rank bounds reaches every root. -/
theorem mem_rootsFrom (hg : g.Acyclic) {fuel : Nat} {r v : ν} (hf : g.reverse.rank v < fuel)
    (h : g.RootOf r v) : r ∈ rootsFrom g fuel v := by
  induction fuel generalizing v with
  | zero => omega
  | succ fuel ih =>
      unfold rootsFrom
      rcases ReflTransGen.cases_tail h.leads with rfl | ⟨w, hw, hadj⟩
      · have hup : g.inEdges v = [] :=
          List.eq_nil_iff_forall_not_mem.mpr fun x hx => h.root x ((g.mem_inEdges x v).mp hx)
        rw [hup]
        exact List.mem_singleton_self v
      · have hmem := (g.mem_inEdges w v).mpr hadj
        have hlt := Digraph.rank_lt hg.reverse ((g.adj_reverse v w).mpr hadj)
        split
        · rename_i hup
          rw [hup] at hmem
          cases hmem
        · rename_i x xs hup
          have hr : r ∈ rootsFrom g fuel w := ih (by omega) ⟨h.root, hw⟩
          exact List.mem_flatMap.mpr ⟨w, hup ▸ hmem, hr⟩

/-- The vertices met are those below a root above the start. -/
theorem mem_family_iff (hg : g.Acyclic) {fuel : Nat} (hf : g.edges.length < fuel) {v w : ν} :
    w ∈ family g fuel v ↔ ∃ r, g.RootOf r v ∧ ReflTransGen g.Adj r w := by
  have hlen : g.reverse.edges.length = g.edges.length := List.length_map _
  have hup : g.reverse.rank v < fuel := by
    have := g.reverse.rank_le v
    omega
  unfold family
  rw [List.mem_flatMap]
  constructor
  · rintro ⟨r, hr, hw⟩
    exact ⟨r, rootOf_of_mem hr, leads_of_mem_preorder hw⟩
  · rintro ⟨r, hr, hleads⟩
    exact ⟨r, mem_rootsFrom hg hup hr,
      mem_preorder_of_leads hg (lt_of_le_of_lt (g.rank_le r) hf) hleads⟩

/-! ## The recursion as a fold -/

variable {f : σ → ν → σ}

theorem descend_eq_foldl (fuel : Nat) {s t : σ} {v : ν}
    (h : descend g.outEdges (fun s v => (f s v, true)) fuel s v = some t) :
    t = (preorder g fuel v).foldl f s := by
  induction fuel generalizing s t v with
  | zero => cases h
  | succ fuel ih =>
      have hbelow : ∀ s t w, descend g.outEdges (fun s v => (f s v, true)) fuel s w = some t →
          t = (preorder g fuel w).foldl f s := fun _ _ _ => ih
      exact foldl_of_foldlM hbelow (g.outEdges v) h

/-- To climb and to descend is to fold over the family. -/
theorem climb_eq_foldl (hg : g.Acyclic) {fuel : Nat} (hf : g.edges.length < fuel) (s : σ) (v : ν) :
    climb g.inEdges (descend g.outEdges (fun s v => (f s v, true)) fuel) fuel s v =
      some ((family g fuel v).foldl f s) := by
  have hsome := climb_isSome hg (fun s v => descend_isSome hg (fun s v => (f s v, true)) hf s v)
    hf s v
  obtain ⟨t, ht⟩ := Option.isSome_iff_exists.mp hsome
  rw [ht, foldl_of_foldlM (fun _ _ _ => descend_eq_foldl fuel) _ (foldlM_of_climb ht)]
  rfl

/-! ## Routes and what hangs on the vertices -/

/-- Where `y` hangs on the vertex `w` alone, and once, it is met once for each route to `w`. -/
theorem count_flatMap_of_owner {β : Type} [DecidableEq β] {of : ν → List β} {y : β} {w : ν}
    (hmem : y ∈ of w) (hnodup : (of w).Nodup) (howner : ∀ v, y ∈ of v → v = w) (vs : List ν) :
    (vs.flatMap of).count y = vs.count w := by
  induction vs with
  | nil => rfl
  | cons v vs ih =>
      rw [List.flatMap_cons, List.count_append, ih]
      by_cases h : v = w
      · rw [h, List.count_eq_one_of_mem hnodup hmem, List.count_cons_self, Nat.add_comm]
      · have hnot : y ∉ of v := fun hy => h (howner v hy)
        rw [List.count_eq_zero_of_not_mem hnot, List.count_cons_of_ne h, Nat.zero_add]

/-! ## What the routes weigh -/

theorem totalOf_flatMap {α β : Type} {weight : β → Nat} {below : α → List β} {sum : α → Nat}
    (as : List α) (h : ∀ a ∈ as, totalOf weight (below a) = sum a) :
    totalOf weight (as.flatMap below) = totalOf sum as := by
  induction as with
  | nil => rfl
  | cons a as ih =>
      rw [List.flatMap_cons, totalOf_append, h a List.mem_cons_self,
        ih fun b hb => h b (List.mem_cons_of_mem a hb)]
      rfl

/-- Where elements hang on the vertices, each vertex weighs as many as are picked of its own. -/
theorem length_filter_flatMap {α β : Type} (p : β → Bool) (of : α → List β) (as : List α) :
    ((as.flatMap of).filter p).length = totalOf (fun a => ((of a).filter p).length) as := by
  induction as with
  | nil => rfl
  | cons a as ih =>
      rw [List.flatMap_cons, List.filter_append, List.length_append, ih]
      rfl

/-- `sum` solves the equations for what the paths down from each of some vertices weigh. -/
structure Digraph.WeighsDown (g : Digraph ν) (vertices : List ν) (weight sum : ν → Nat) :
    Prop where
  closed : ∀ v ∈ vertices, ∀ x ∈ g.outEdges v, x ∈ vertices
  eq : ∀ v ∈ vertices, sum v = weight v + totalOf sum (g.outEdges v)

/-- `routes` solves the equations for the climbs, when `sum` is what is below a root. -/
structure Digraph.WeighsUp (g : Digraph ν) (vertices : List ν) (sum routes : ν → Nat) :
    Prop where
  closed : ∀ v ∈ vertices, ∀ x ∈ g.inEdges v, x ∈ vertices
  eq : ∀ v ∈ vertices,
    routes v = if g.inEdges v = [] then sum v else totalOf routes (g.inEdges v)

variable {vertices : List ν} {weight sum routes : ν → Nat}

theorem total_preorder (hg : g.Acyclic) (hdown : g.WeighsDown vertices weight sum) {fuel : Nat}
    {v : ν} (hv : v ∈ vertices) (hf : g.rank v < fuel) :
    totalOf weight (preorder g fuel v) = sum v := by
  induction fuel generalizing v with
  | zero => omega
  | succ fuel ih =>
      have hbelow : ∀ x ∈ g.outEdges v, totalOf weight (preorder g fuel x) = sum x := by
        intro x hx
        have hlt := Digraph.rank_lt hg ((g.mem_outEdges v x).mp hx)
        exact ih (hdown.closed v hv x hx) (by omega)
      rw [hdown.eq v hv, ← totalOf_flatMap (g.outEdges v) hbelow]
      rfl

/-- The vertices met from `v` weigh what the equations say. -/
theorem total_family (hg : g.Acyclic) (hdown : g.WeighsDown vertices weight sum)
    (hup : g.WeighsUp vertices sum routes) {fuel : Nat} (hf : g.edges.length < fuel) {v : ν}
    (hv : v ∈ vertices) : totalOf weight (family g fuel v) = routes v := by
  have hroots : ∀ depth, ∀ v ∈ vertices, g.reverse.rank v < depth →
      totalOf sum (rootsFrom g depth v) = routes v ∧ ∀ r ∈ rootsFrom g depth v, r ∈ vertices := by
    intro depth
    induction depth with
    | zero => exact fun v _ h => absurd h (Nat.not_lt_zero _)
    | succ depth ih =>
        intro v hv hd
        have habove : ∀ x ∈ g.inEdges v, totalOf sum (rootsFrom g depth x) = routes x ∧
            ∀ r ∈ rootsFrom g depth x, r ∈ vertices := by
          intro x hx
          have hlt := Digraph.rank_lt hg.reverse
            ((g.adj_reverse v x).mpr ((g.mem_inEdges x v).mp hx))
          exact ih x (hup.closed v hv x hx) (by omega)
        rw [hup.eq v hv]
        unfold rootsFrom
        split
        · rename_i hnone
          rw [if_pos hnone]
          exact ⟨Nat.add_zero _, fun r hr => List.mem_singleton.mp hr ▸ hv⟩
        · rename_i w ws hsome
          rw [hsome] at habove ⊢
          rw [if_neg (List.cons_ne_nil w ws)]
          refine ⟨totalOf_flatMap _ fun x hx => (habove x hx).1, fun r hr => ?_⟩
          obtain ⟨x, hx, hr⟩ := List.mem_flatMap.mp hr
          exact (habove x hx).2 r hr
  have hlen : g.reverse.edges.length = g.edges.length := List.length_map _
  have hrank := g.reverse.rank_le v
  obtain ⟨hsum, hmem⟩ := hroots fuel v hv (by omega)
  rw [← hsum]
  exact totalOf_flatMap _ fun r hr =>
    total_preorder hg hdown (hmem r hr) (lt_of_le_of_lt (g.rank_le r) hf)

end BuxnLs.Lib
