/-
  Runs of a step function `σ → α → Option σ`, where `none` means the label is not enabled.
  `run_inv` carries an invariant along a run, `run_inv_of_meets` does it when every step of the
  run meets a condition on the state it starts in, and `always_iff_meets` turns a property that
  a step keeps exactly under a condition into an equivalence about whole runs
  (`always_iff_meets_at_rest` for a property that is only looked at in some states).
-/
import Mathlib.Data.List.Infix

namespace BuxnLs.Lib

variable {σ α : Type} (step : σ → α → Option σ)

def run (s : σ) (ls : List α) : Option σ := ls.foldlM step s

/-- `s` is reached by some run from `init`. -/
def Reachable (init s : σ) : Prop := ∃ ls, run step init ls = some s

/-- `P` holds in every state that the run of `ls` from `s` passes through. -/
def Always (P : σ → Prop) (s : σ) (ls : List α) : Prop :=
  ∀ pre, pre <+: ls → ∀ t, run step s pre = some t → P t

/-- Every step of the run of `ls` from `s` meets `C` in the state it starts in. -/
def Meets (C : σ → α → Prop) (s : σ) (ls : List α) : Prop :=
  ∀ pre l, pre ++ [l] <+: ls → ∀ t, run step s pre = some t → C t l

variable {step}

@[simp] theorem run_nil (s : σ) : run step s [] = some s := rfl

theorem run_cons (s : σ) (l : α) (ls : List α) :
    run step s (l :: ls) = (step s l).bind fun t => run step t ls := by
  simp [run, List.foldlM_cons]

theorem run_append (s : σ) (ls ls' : List α) :
    run step s (ls ++ ls') = (run step s ls).bind fun t => run step t ls' := by
  simp [run, List.foldlM_append]

theorem run_concat (s : σ) (ls : List α) (l : α) :
    run step s (ls ++ [l]) = (run step s ls).bind fun t => step t l := by
  rw [run_append]
  congr 1
  funext t
  rw [run_cons]
  cases step t l <;> rfl

theorem run_cons_some {s t : σ} {l : α} {ls : List α} (h : run step s (l :: ls) = some t) :
    ∃ u, step s l = some u ∧ run step u ls = some t := by
  rwa [run_cons, Option.bind_eq_some_iff] at h

theorem run_concat_some {s t : σ} {l : α} {ls : List α} (h : run step s (ls ++ [l]) = some t) :
    ∃ u, run step s ls = some u ∧ step u l = some t := by
  rwa [run_concat, Option.bind_eq_some_iff] at h

/-- What every step keeps, every run keeps. -/
theorem run_inv {P : σ → Prop} (hstep : ∀ s l t, P s → step s l = some t → P t) {s t : σ}
    {ls : List α} (hs : P s) (h : run step s ls = some t) : P t := by
  induction ls generalizing s with
  | nil => exact Option.some.inj h ▸ hs
  | cons l ls ih =>
      obtain ⟨u, hu, h⟩ := run_cons_some h
      exact ih (hstep s l u hs hu) h

theorem Reachable.inv {P : σ → Prop} {init s : σ} (hr : Reachable step init s) (h0 : P init)
    (hstep : ∀ s l t, P s → step s l = some t → P t) : P s := by
  obtain ⟨ls, h⟩ := hr
  exact run_inv hstep h0 h

theorem Reachable.refl (s : σ) : Reachable step s s := ⟨[], rfl⟩

theorem Reachable.next {init s t : σ} {l : α} (hr : Reachable step init s)
    (h : step s l = some t) : Reachable step init t := by
  obtain ⟨ls, hs⟩ := hr
  exact ⟨ls ++ [l], by rw [run_concat, hs, Option.bind_some, h]⟩

theorem Reachable.run {init s t : σ} {ls : List α} (hr : Reachable step init s)
    (h : run step s ls = some t) : Reachable step init t :=
  run_inv (fun _ _ _ hr hs => hr.next hs) hr h

/-- A system whose steps are steps of another one on a part of its state reaches nothing new
    there. -/
theorem Reachable.map {τ : Type} {step' : τ → α → Option τ} {f : τ → σ}
    (hf : ∀ s l t, step' s l = some t → step (f s) l = some (f t)) {init s : τ}
    (hr : Reachable step' init s) : Reachable step (f init) (f s) :=
  hr.inv (P := fun s => Reachable step (f init) (f s)) (.refl _)
    fun s l t hs ht => hs.next (hf s l t ht)

/-- Two runs over the same labels stay related when every pair of steps keeps the relation. -/
theorem run_rel {τ : Type} {step' : τ → α → Option τ} {R : σ → τ → Prop} {ls : List α}
    (hstep : ∀ l ∈ ls, ∀ s t s' t', R s t → step s l = some s' → step' t l = some t' → R s' t')
    {s s' : σ} {t t' : τ} (hR : R s t) (hs : run step s ls = some s')
    (ht : run step' t ls = some t') : R s' t' := by
  induction ls generalizing s t with
  | nil => exact Option.some.inj hs ▸ Option.some.inj ht ▸ hR
  | cons l ls ih =>
      obtain ⟨u, hu, hs⟩ := run_cons_some hs
      obtain ⟨v, hv, ht⟩ := run_cons_some ht
      refine ih (fun l hl => hstep l (List.mem_cons_of_mem _ hl)) ?_ hs ht
      exact hstep l List.mem_cons_self s t u v hR hu hv

/-- What relates a state to the labels so far, step by step, relates it to those of a run. -/
theorem run_history {P : σ → List α → Prop}
    (hstep : ∀ s l t past, P s past → step s l = some t → P t (past ++ [l])) {s t : σ}
    {past ls : List α} (hs : P s past) (h : run step s ls = some t) : P t (past ++ ls) := by
  induction ls generalizing s past with
  | nil =>
      obtain rfl := Option.some.inj h
      rw [List.append_nil]
      exact hs
  | cons l ls ih =>
      obtain ⟨u, hu, h⟩ := run_cons_some h
      rw [← List.singleton_append, ← List.append_assoc]
      exact ih (hstep s l u past hs hu) h

/-! ## What a run emits -/

/-- The outputs of the steps of a run, in order. -/
def collect {β : Type} (step : σ → α → Option σ) (out : σ → α → List β) :
    σ → List α → List β
  | _, [] => []
  | s, l :: ls =>
    match step s l with
    | none => []
    | some t => out s l ++ collect step out t ls

theorem collect_cons {β : Type} {out : σ → α → List β} {s t : σ} {l : α} {ls : List α}
    (h : step s l = some t) :
    collect step out s (l :: ls) = out s l ++ collect step out t ls := by
  simp only [collect, h]

theorem collect_append {β : Type} {out : σ → α → List β} {s t : σ} {ls ls' : List α}
    (h : run step s ls = some t) :
    collect step out s (ls ++ ls') = collect step out s ls ++ collect step out t ls' := by
  induction ls generalizing s with
  | nil => exact Option.some.inj h ▸ rfl
  | cons l ls ih =>
      obtain ⟨u, hu, h⟩ := run_cons_some h
      rw [List.cons_append, collect_cons hu, collect_cons hu, ih h, List.append_assoc]

theorem mem_collect {β : Type} {out : σ → α → List β} {s t : σ} {ls : List α} {b : β}
    (h : run step s ls = some t) :
    b ∈ collect step out s ls ↔
      ∃ pre l, pre ++ [l] <+: ls ∧ ∃ u, run step s pre = some u ∧ b ∈ out u l := by
  induction ls generalizing s with
  | nil => simp [collect]
  | cons l ls ih =>
      obtain ⟨u, hu, h⟩ := run_cons_some h
      rw [collect_cons hu, List.mem_append, ih h]
      constructor
      · rintro (hb | ⟨pre, x, hpre, v, hv, hb⟩)
        · exact ⟨[], l, by simp, s, rfl, hb⟩
        · refine ⟨l :: pre, x, by simpa using hpre, v, ?_, hb⟩
          rw [run_cons, hu, Option.bind_some, hv]
      · rintro ⟨pre, x, hpre, v, hv, hb⟩
        cases pre with
        | nil =>
            obtain rfl : x = l := by simpa using hpre
            exact Or.inl (Option.some.inj hv ▸ hb)
        | cons y pre =>
            rw [List.cons_append, List.cons_prefix_cons] at hpre
            obtain ⟨rfl, hpre⟩ := hpre
            rw [run_cons, hu, Option.bind_some] at hv
            exact Or.inr ⟨pre, x, hpre, v, hv, hb⟩

/-! ## Runs whose steps meet a condition -/

theorem Meets.head {C : σ → α → Prop} {s : σ} {l : α} {ls : List α}
    (h : Meets step C s (l :: ls)) : C s l :=
  h [] l (by simp) s rfl

theorem Meets.tail {C : σ → α → Prop} {s t : σ} {l : α} {ls : List α}
    (h : Meets step C s (l :: ls)) (hs : step s l = some t) : Meets step C t ls := by
  intro pre l' hpre u hu
  refine h (l :: pre) l' ?_ u ?_
  · simpa using hpre
  · rw [run_cons, hs, Option.bind_some, hu]

theorem Meets.restrict {C : σ → α → Prop} {s : σ} {ls ls' : List α} (h : Meets step C s ls')
    (hp : ls <+: ls') : Meets step C s ls :=
  fun pre l hpre => h pre l (hpre.trans hp)

theorem meets_nil (C : σ → α → Prop) (s : σ) : Meets step C s [] := by
  intro pre l hpre
  simp at hpre

theorem meets_cons_iff {C : σ → α → Prop} {s : σ} {l : α} {ls : List α} :
    Meets step C s (l :: ls) ↔ C s l ∧ ∀ t, step s l = some t → Meets step C t ls := by
  refine ⟨fun h => ⟨h.head, fun t ht => h.tail ht⟩, fun h pre l' hpre t ht => ?_⟩
  cases pre with
  | nil =>
      obtain rfl := Option.some.inj ht
      obtain rfl : l' = l := by simpa using hpre
      exact h.1
  | cons x pre =>
      rw [List.cons_append, List.cons_prefix_cons] at hpre
      obtain ⟨rfl, hpre⟩ := hpre
      obtain ⟨u, hu, ht⟩ := run_cons_some ht
      exact h.2 u hu pre l' hpre t ht

theorem Meets.append {C : σ → α → Prop} {s t : σ} {ls ls' : List α} (h : Meets step C s ls)
    (hs : run step s ls = some t) (h' : Meets step C t ls') : Meets step C s (ls ++ ls') := by
  induction ls generalizing s with
  | nil => exact Option.some.inj hs ▸ h'
  | cons l ls ih =>
      obtain ⟨u, hu, hs⟩ := run_cons_some hs
      refine meets_cons_iff.mpr ⟨h.head, fun v hv => ?_⟩
      obtain rfl : u = v := Option.some.inj (hu.symm.trans hv)
      exact ih (h.tail hu) hs

/-- A condition on the labels alone. -/
theorem meets_iff_forall_mem {C : α → Prop} {s : σ} {ls : List α}
    (hrun : (run step s ls).isSome) : Meets step (fun _ l => C l) s ls ↔ ∀ l ∈ ls, C l := by
  induction ls generalizing s with
  | nil => exact ⟨fun _ _ hl => absurd hl List.not_mem_nil, fun _ => meets_nil _ s⟩
  | cons l ls ih =>
      obtain ⟨t, ht⟩ := Option.isSome_iff_exists.mp hrun
      obtain ⟨u, hu, ht⟩ := run_cons_some ht
      have htail := ih (Option.isSome_iff_exists.mpr ⟨t, ht⟩)
      rw [meets_cons_iff, List.forall_mem_cons]
      constructor
      · exact fun h => ⟨h.1, htail.mp (h.2 u hu)⟩
      · rintro ⟨hl, hls⟩
        refine ⟨hl, fun v hv => ?_⟩
        obtain rfl : u = v := Option.some.inj (hu.symm.trans hv)
        exact htail.mpr hls

/-- A property of all outputs is one of the steps. -/
theorem forall_mem_collect_iff {β : Type} {out : σ → α → List β} {P : β → Prop} {s : σ}
    {ls : List α} (hrun : (run step s ls).isSome) :
    (∀ b ∈ collect step out s ls, P b) ↔ Meets step (fun s l => ∀ b ∈ out s l, P b) s ls := by
  obtain ⟨t, h⟩ := Option.isSome_iff_exists.mp hrun
  constructor
  · intro hall pre l hpre u hu b hb
    exact hall b ((mem_collect h).mpr ⟨pre, l, hpre, u, hu, hb⟩)
  · intro hmeets b hb
    obtain ⟨pre, l, hpre, u, hu, hb⟩ := (mem_collect h).mp hb
    exact hmeets pre l hpre u hu b hb

/-- Along a run that keeps `I`, a condition may be read with `I` at hand. -/
theorem meets_congr_of_inv {I : σ → Prop} {C D : σ → α → Prop}
    (hinv : ∀ s l t, I s → step s l = some t → I t) (hcd : ∀ s l, I s → (C s l ↔ D s l)) {s : σ}
    {ls : List α} (hs : I s) : Meets step C s ls ↔ Meets step D s ls := by
  constructor
  · intro h pre l hpre t ht
    exact (hcd t l (run_inv hinv hs ht)).mp (h pre l hpre t ht)
  · intro h pre l hpre t ht
    exact (hcd t l (run_inv hinv hs ht)).mpr (h pre l hpre t ht)

instance decidableMeets {C : σ → α → Prop} [∀ s l, Decidable (C s l)] :
    ∀ (ls : List α) (s : σ), Decidable (Meets step C s ls)
  | [], s => isTrue (meets_nil C s)
  | l :: ls, s =>
    match h : step s l with
    | none => decidable_of_iff (C s l)
        ⟨fun hc => meets_cons_iff.mpr ⟨hc, fun t ht => by rw [h] at ht; cases ht⟩, Meets.head⟩
    | some t =>
      have := decidableMeets (C := C) ls t
      decidable_of_iff (C s l ∧ Meets step C t ls)
        ⟨fun hc => meets_cons_iff.mpr ⟨hc.1, fun u hu => by
          rw [h] at hu
          exact Option.some.inj hu ▸ hc.2⟩,
        fun hm => ⟨hm.head, hm.tail h⟩⟩

/-- What every step that meets `C` keeps, every run whose steps meet `C` keeps. -/
theorem run_inv_of_meets {P : σ → Prop} {C : σ → α → Prop}
    (hstep : ∀ s l t, P s → C s l → step s l = some t → P t) {s t : σ} {ls : List α} (hs : P s)
    (hC : Meets step C s ls) (h : run step s ls = some t) : P t := by
  induction ls generalizing s with
  | nil => exact Option.some.inj h ▸ hs
  | cons l ls ih =>
      obtain ⟨u, hu, h⟩ := run_cons_some h
      exact ih (hstep s l u hs hC.head hu) (hC.tail hu) h

/-- What relates a state to the outputs so far, step by step, relates it to those of a run. -/
theorem collect_inv {β : Type} {out : σ → α → List β} {C : σ → α → Prop} {P : σ → List β → Prop}
    (hstep : ∀ s l t acc, P s acc → C s l → step s l = some t → P t (acc ++ out s l)) {s t : σ}
    {acc : List β} {ls : List α} (hs : P s acc) (hC : Meets step C s ls)
    (h : run step s ls = some t) : P t (acc ++ collect step out s ls) := by
  induction ls generalizing s acc with
  | nil =>
      obtain rfl := Option.some.inj h
      rw [collect, List.append_nil]
      exact hs
  | cons l ls ih =>
      obtain ⟨u, hu, h⟩ := run_cons_some h
      rw [collect_cons hu, ← List.append_assoc]
      exact ih (hstep s l u acc hs hC.head hu) (hC.tail hu) h

theorem always_of_meets {P : σ → Prop} {C : σ → α → Prop}
    (hstep : ∀ s l t, P s → C s l → step s l = some t → P t) {s : σ} {ls : List α} (hs : P s)
    (hC : Meets step C s ls) : Always step P s ls :=
  fun _ hp _ h => run_inv_of_meets hstep hs (hC.restrict hp) h

/-- Where a step from a state with `P` reaches `P` exactly when it meets `C`, a run of enabled
    steps stays in `P` exactly when all of its steps meet `C`. -/
theorem always_iff_meets {P : σ → Prop} {C : σ → α → Prop}
    (hstep : ∀ s l t, P s → step s l = some t → (P t ↔ C s l)) {s : σ} {ls : List α} (hs : P s)
    (hrun : (run step s ls).isSome) : Always step P s ls ↔ Meets step C s ls := by
  constructor
  · intro h pre l hpre t ht
    have hPt : P t := h pre ((List.prefix_append pre [l]).trans hpre) t ht
    -- the whole run is enabled, so this step of it is
    obtain ⟨rest, rfl⟩ := hpre
    obtain ⟨u, hu⟩ := Option.isSome_iff_exists.mp hrun
    rw [run_append, run_concat, ht, Option.bind_some, Option.bind_eq_some_iff] at hu
    obtain ⟨v, hv, -⟩ := hu
    refine (hstep t l v hPt hv).mp (h (pre ++ [l]) (List.prefix_append _ _) v ?_)
    rw [run_concat, ht, Option.bind_some, hv]
  · exact always_of_meets (fun s l t hP hC hst => (hstep s l t hP hst).mpr hC) hs

/-- The same with an invariant at hand. -/
theorem always_iff_meets_of_inv {I P : σ → Prop} {C : σ → α → Prop}
    (hinv : ∀ s l t, I s → step s l = some t → I t)
    (hstep : ∀ s l t, I s → P s → step s l = some t → (P t ↔ C s l)) {s : σ} {ls : List α}
    (hI : I s) (hP : P s) (hrun : (run step s ls).isSome) :
    Always step P s ls ↔ Meets step C s ls := by
  have hboth : Always step (fun t => I t ∧ P t) s ls ↔ Meets step C s ls := by
    refine always_iff_meets (fun s l t hs h => ?_) ⟨hI, hP⟩ hrun
    rw [← hstep s l t hs.1 hs.2 h]
    exact ⟨And.right, fun hPt => ⟨hinv s l t hs.1 h, hPt⟩⟩
  rw [← hboth]
  constructor
  · exact fun h pre hpre t ht => ⟨run_inv hinv hI ht, h pre hpre t ht⟩
  · exact fun h pre hpre t ht => (h pre hpre t ht).2

/-! ## Properties of the states at rest -/

/-- Where a run leads from a state that is not at rest, it passes a state at rest. -/
theorem exists_rest {B R : σ → Prop}
    (hstay : ∀ s l t, B s → ¬ R s → step s l = some t → B t) {s t : σ} {ls : List α}
    (hs : B s) (h : run step s ls = some t) (ht : R t) :
    ∃ pre, pre <+: ls ∧ ∃ u, run step s pre = some u ∧ R u ∧ B u := by
  induction ls generalizing s with
  | nil =>
      obtain rfl := Option.some.inj h
      exact ⟨[], List.prefix_rfl, s, rfl, ht, hs⟩
  | cons l ls ih =>
      by_cases hr : R s
      · exact ⟨[], List.nil_prefix, s, rfl, hr, hs⟩
      · obtain ⟨u, hu, h⟩ := run_cons_some h
        obtain ⟨pre, hpre, v, hv, hrv, hbv⟩ := ih (hstay s l u hs hr hu) h
        refine ⟨l :: pre, List.cons_prefix_cons.mpr ⟨rfl, hpre⟩, v, ?_, hrv, hbv⟩
        rw [run_cons, hu, Option.bind_some, hv]

/-- Let `H` be promised of every step. Where a step that meets `C` keeps the invariant `P` and
    one that does not spoils the state until it is next at rest, the states at rest of a run
    that ends at rest have `Q` exactly when all of its steps meet `C`. -/
theorem always_iff_meets_at_rest {P B R Q : σ → Prop} {H C : σ → α → Prop}
    (hkeep : ∀ s l t, P s → H s l → step s l = some t → C s l → P t)
    (hspoil : ∀ s l t, P s → H s l → step s l = some t → ¬ C s l → B t)
    (hstay : ∀ s l t, B s → ¬ R s → step s l = some t → B t)
    (hgood : ∀ s, P s → Q s) (hbad : ∀ s, B s → ¬ Q s) {s t : σ} {ls : List α} (hs : P s)
    (hH : Meets step H s ls) (h : run step s ls = some t) (ht : R t) :
    Always step (fun u => R u → Q u) s ls ↔ Meets step C s ls := by
  constructor
  · intro hall
    induction ls generalizing s with
    | nil => exact meets_nil C s
    | cons l ls ih =>
        obtain ⟨u, hu, h⟩ := run_cons_some h
        have htail : Always step (fun u => R u → Q u) u ls := fun pre hpre v hv =>
          hall (l :: pre) (List.cons_prefix_cons.mpr ⟨rfl, hpre⟩) v
            (by rw [run_cons, hu, Option.bind_some, hv])
        have hC : C s l := by
          by_contra hc
          obtain ⟨pre, hpre, v, hv, hrv, hbv⟩ :=
            exists_rest hstay (hspoil s l u hs hH.head hu hc) h ht
          exact hbad v hbv (htail pre hpre v hv hrv)
        refine meets_cons_iff.mpr ⟨hC, fun u' hu' => ?_⟩
        obtain rfl : u = u' := Option.some.inj (hu.symm.trans hu')
        exact ih (hkeep s l u hs hH.head hu hC) (hH.tail hu) h htail
  · intro hC pre hpre u hu _
    have hboth : Meets step (fun s l => H s l ∧ C s l) s pre := fun p l hp v hv =>
      ⟨hH p l (hp.trans hpre) v hv, hC p l (hp.trans hpre) v hv⟩
    exact hgood u (run_inv_of_meets (P := P)
      (fun s l t hp hc hst => hkeep s l t hp hc.1 hst hc.2) hs hboth hu)

end BuxnLs.Lib
