/-
  A heap whose cells are owned by regions. A cell is addressed by its index, `alloc` adds one,
  `update` changes the content of one, and `release` frees all cells of a region at once. A
  region is `Closed` when its cells point to cells of the region only; then everything that is
  reachable from pointers into it lies in it (`Reach.within`), and releasing another region frees
  nothing of that (`Reach.kept`).
-/
import Mathlib.Data.List.Basic
import Mathlib.Data.Option.Basic

namespace BuxnLs.Lib

structure Cell (ρ κ : Type) where
  region : ρ
  content : κ

/-- The cells; `none` is one that was released. -/
structure Heap (ρ κ : Type) where
  cells : List (Option (Cell ρ κ))

namespace Heap

variable {ρ κ : Type}

def empty : Heap ρ κ := ⟨[]⟩

def read (h : Heap ρ κ) (p : Nat) : Option (Cell ρ κ) := (h.cells[p]?).join

def alloc (h : Heap ρ κ) (r : ρ) (x : κ) : Heap ρ κ × Nat :=
  (⟨h.cells ++ [some ⟨r, x⟩]⟩, h.cells.length)

def update (h : Heap ρ κ) (p : Nat) (f : κ → κ) : Heap ρ κ :=
  ⟨h.cells.modify p (Option.map fun c => { c with content := f c.content })⟩

def release [DecidableEq ρ] (h : Heap ρ κ) (r : ρ) : Heap ρ κ :=
  ⟨h.cells.map (Option.filter fun c => c.region ≠ r)⟩

/-- `p` points to a cell of `r`. -/
def Within (h : Heap ρ κ) (r : ρ) (p : Nat) : Prop := (h.read p).map Cell.region = some r

instance [DecidableEq ρ] (h : Heap ρ κ) (r : ρ) (p : Nat) : Decidable (h.Within r p) :=
  inferInstanceAs (Decidable (_ = _))

theorem within_iff {h : Heap ρ κ} {r : ρ} {p : Nat} :
    h.Within r p ↔ ∃ c, h.read p = some c ∧ c.region = r :=
  Option.map_eq_some_iff

/-! ## Reading after a change -/

theorem read_alloc (h : Heap ρ κ) (r : ρ) (x : κ) (p : Nat) :
    (h.alloc r x).1.read p = if p = h.cells.length then some ⟨r, x⟩ else h.read p := by
  unfold read alloc
  rcases Nat.lt_trichotomy p h.cells.length with hp | rfl | hp
  · rw [List.getElem?_append_left hp, if_neg (by omega)]
  · simp
  · rw [List.getElem?_eq_none (by simp; omega), List.getElem?_eq_none (by omega),
      if_neg (by omega)]

theorem read_update (h : Heap ρ κ) (p : Nat) (f : κ → κ) (q : Nat) :
    (h.update p f).read q =
      if p = q then (h.read q).map fun c => { c with content := f c.content } else h.read q := by
  unfold read update
  rw [List.getElem?_modify]
  cases h.cells[q]? with
  | none => by_cases hpq : p = q <;> simp [hpq]
  | some c => by_cases hpq : p = q <;> cases c <;> simp [hpq]

theorem read_release [DecidableEq ρ] (h : Heap ρ κ) (r : ρ) (p : Nat) :
    (h.release r).read p = (h.read p).filter fun c => c.region ≠ r := by
  unfold read release
  rw [List.getElem?_map]
  cases h.cells[p]? <;> rfl

/-! ## Regions -/

theorem within_alloc {h : Heap ρ κ} {r : ρ} {p : Nat} (hp : h.Within r p) (r' : ρ) (x : κ) :
    (h.alloc r' x).1.Within r p := by
  obtain ⟨c, hc, hr⟩ := within_iff.mp hp
  refine within_iff.mpr ⟨c, ?_, hr⟩
  rw [read_alloc]
  split
  · rename_i hnew
    have hlen : h.read p = none := by
      unfold read
      rw [List.getElem?_eq_none (by omega)]
      rfl
    rw [hlen] at hc
    cases hc
  · exact hc

theorem within_alloc_self (h : Heap ρ κ) (r : ρ) (x : κ) :
    (h.alloc r x).1.Within r (h.alloc r x).2 := by
  refine within_iff.mpr ⟨⟨r, x⟩, ?_, rfl⟩
  rw [read_alloc]
  exact if_pos rfl

theorem within_update {h : Heap ρ κ} {r : ρ} {q : Nat} (p : Nat) (f : κ → κ)
    (hq : h.Within r q) : (h.update p f).Within r q := by
  obtain ⟨c, hc, hr⟩ := within_iff.mp hq
  refine within_iff.mpr ?_
  rw [read_update, hc]
  split
  · exact ⟨_, rfl, hr⟩
  · exact ⟨c, rfl, hr⟩

theorem read_release_of_within [DecidableEq ρ] {h : Heap ρ κ} {r r' : ρ} {p : Nat}
    (hne : r ≠ r') (hp : h.Within r p) : (h.release r').read p = h.read p := by
  obtain ⟨c, hc, hr⟩ := within_iff.mp hp
  rw [read_release, hc]
  exact Option.filter_some_pos (by simpa [hr] using hne)

/-- Every cell is in a region with `P`. -/
def Regions (P : ρ → Prop) (h : Heap ρ κ) : Prop := ∀ p c, h.read p = some c → P c.region

theorem regions_empty (P : ρ → Prop) : Regions P (empty : Heap ρ κ) := fun _ _ hc => by cases hc

theorem Regions.mono {P Q : ρ → Prop} {h : Heap ρ κ} (hr : Regions P h) (hpq : ∀ r, P r → Q r) :
    Regions Q h :=
  fun p c hc => hpq c.region (hr p c hc)

theorem Regions.alloc {P : ρ → Prop} {h : Heap ρ κ} (hr : Regions P h) {r : ρ} (hp : P r)
    (x : κ) : Regions P (h.alloc r x).1 := by
  intro p c hc
  rw [read_alloc] at hc
  split at hc
  · exact Option.some.inj hc ▸ hp
  · exact hr p c hc

theorem Regions.update {P : ρ → Prop} {h : Heap ρ κ} (hr : Regions P h) (p : Nat) (f : κ → κ) :
    Regions P (h.update p f) := by
  intro q c hc
  rw [read_update] at hc
  split at hc
  · obtain ⟨old, hold, rfl⟩ := Option.map_eq_some_iff.mp hc
    exact hr q old hold
  · exact hr q c hc

theorem Regions.release [DecidableEq ρ] {P : ρ → Prop} {h : Heap ρ κ} (hr : Regions P h) (r : ρ) :
    Regions P (h.release r) := by
  intro p c hc
  rw [read_release] at hc
  exact hr p c (Option.filter_eq_some_iff.mp hc).1

section Fields

variable {fields : κ → List Nat}

/-- The cells of `r` point to cells of `r` only. -/
def Closed (fields : κ → List Nat) (h : Heap ρ κ) (r : ρ) : Prop :=
  ∀ p c, h.read p = some c → c.region = r → ∀ q ∈ fields c.content, h.Within r q

/-- A region without cells is closed. -/
theorem Regions.closed {h : Heap ρ κ} {r : ρ} (hr : Regions (· ≠ r) h) : Closed fields h r :=
  fun p c hc he => absurd he (hr p c hc)

theorem Closed.alloc {h : Heap ρ κ} {r : ρ} (hc : Closed fields h r) {x : κ}
    (hx : ∀ q ∈ fields x, h.Within r q) : Closed fields (h.alloc r x).1 r := by
  intro p c hp hr q hq
  rw [read_alloc] at hp
  split at hp
  · obtain rfl := Option.some.inj hp
    exact within_alloc (hx q hq) r x
  · exact within_alloc (hc p c hp hr q hq) r x

theorem Closed.update {h : Heap ρ κ} {r : ρ} (hc : Closed fields h r) (p : Nat) {f : κ → κ}
    (hf : ∀ c, h.read p = some c → c.region = r → ∀ q ∈ fields (f c.content), h.Within r q) :
    Closed fields (h.update p f) r := by
  intro x c hx hr q hq
  rw [read_update] at hx
  split at hx
  · rename_i hpx
    subst hpx
    obtain ⟨old, hold, rfl⟩ := Option.map_eq_some_iff.mp hx
    exact within_update p f (hf old hold hr q hq)
  · exact within_update p f (hc x c hx hr q hq)

/-- What is reachable through the fields of the cells. -/
inductive Reach (fields : κ → List Nat) (h : Heap ρ κ) (roots : List Nat) : Nat → Prop where
  | root {p} : p ∈ roots → Reach fields h roots p
  | field {p c q} : Reach fields h roots p → h.read p = some c → q ∈ fields c.content →
      Reach fields h roots q

theorem Reach.within {h : Heap ρ κ} {r : ρ} {roots : List Nat} {p : Nat}
    (hp : Reach fields h roots p) (hc : Closed fields h r) (hroots : ∀ q ∈ roots, h.Within r q) :
    h.Within r p := by
  induction hp with
  | root hm => exact hroots _ hm
  | @field p c q _ hread hq ih =>
      obtain ⟨c', hc', hr⟩ := within_iff.mp ih
      obtain rfl : c = c' := Option.some.inj (hread.symm.trans hc')
      exact hc p c hread hr q hq

/-- Releasing another region frees nothing that is reachable. -/
theorem Reach.kept [DecidableEq ρ] {h : Heap ρ κ} {r r' : ρ} {roots : List Nat} {p : Nat}
    (hp : Reach fields h roots p) (hc : Closed fields h r) (hroots : ∀ q ∈ roots, h.Within r q)
    (hne : r ≠ r') : (h.release r').read p = h.read p :=
  read_release_of_within hne (hp.within hc hroots)

end Fields

end Heap

end BuxnLs.Lib
