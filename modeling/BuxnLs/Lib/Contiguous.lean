/-
  Writers that share one output. Each element of the output carries the number of the message it
  is from. The output is contiguous when it is a sequence of whole messages and a part of one
  more. `contiguous_append_iff`: writing on in a message keeps it contiguous exactly when no other
  message is partly written.
-/
import Mathlib.Data.List.Nodup
import Mathlib.Data.List.Infix

namespace BuxnLs.Lib

variable {α : Type}

/-- The elements as part of message `m`. -/
def tag (m : Nat) (xs : List α) : List (Nat × α) := xs.map fun x => (m, x)

/-- How much of message `m` is in the output. -/
def written (m : Nat) (out : List (Nat × α)) : Nat := out.countP fun x => x.1 = m

/-- Whole messages, one after the other. -/
def whole (message : Nat → List α) (order : List Nat) : List (Nat × α) :=
  order.flatMap fun m => tag m (message m)

def Contiguous (message : Nat → List α) (out : List (Nat × α)) : Prop :=
  ∃ order m part, order.Nodup ∧ m ∉ order ∧ (∀ k ∈ order, message k ≠ []) ∧ part <+: message m ∧
    out = whole message order ++ tag m part

@[simp] theorem written_append (m : Nat) (out out' : List (Nat × α)) :
    written m (out ++ out') = written m out + written m out' :=
  List.countP_append

theorem written_tag_self (m : Nat) (xs : List α) : written m (tag m xs) = xs.length := by
  unfold written tag
  rw [List.countP_map, List.countP_eq_length.mpr fun x _ => by simp]

theorem written_tag_ne {m k : Nat} (h : k ≠ m) (xs : List α) : written m (tag k xs) = 0 := by
  unfold written tag
  rw [List.countP_map, List.countP_eq_zero.mpr fun x _ => by simpa using h]

theorem written_whole_of_notMem {message : Nat → List α} {order : List Nat} {m : Nat}
    (h : m ∉ order) : written m (whole message order) = 0 := by
  induction order with
  | nil => rfl
  | cons k order ih =>
      rw [List.mem_cons, not_or] at h
      have hcons : whole message (k :: order) = tag k (message k) ++ whole message order := rfl
      rw [hcons, written_append, written_tag_ne (Ne.symm h.1), ih h.2]

theorem written_whole_of_mem {message : Nat → List α} {order : List Nat} {m : Nat}
    (hnd : order.Nodup) (h : m ∈ order) :
    written m (whole message order) = (message m).length := by
  induction order with
  | nil => exact absurd h List.not_mem_nil
  | cons k order ih =>
      obtain ⟨hk, hnd⟩ := List.nodup_cons.mp hnd
      have hcons : whole message (k :: order) = tag k (message k) ++ whole message order := rfl
      rw [hcons, written_append]
      rcases List.mem_cons.mp h with rfl | h
      · rw [written_tag_self, written_whole_of_notMem hk, Nat.add_zero]
      · have hne : k ≠ m := fun he => hk (he ▸ h)
        rw [written_tag_ne hne, ih hnd h, Nat.zero_add]

theorem whole_append (message : Nat → List α) (order order' : List Nat) :
    whole message (order ++ order') = whole message order ++ whole message order' :=
  List.flatMap_append

theorem contiguous_nil (message : Nat → List α) : Contiguous message [] :=
  ⟨[], 0, [], List.nodup_nil, List.not_mem_nil, fun _ h => absurd h List.not_mem_nil,
    List.nil_prefix, rfl⟩

/-- A contiguous output stays so when messages of which nothing is written change. -/
theorem Contiguous.congr {message message' : Nat → List α} {out : List (Nat × α)}
    (h : Contiguous message out) (heq : ∀ m, message m ≠ [] → message' m = message m) :
    Contiguous message' out := by
  obtain ⟨order, m, part, hnd, hm, hne, hpart, hout⟩ := h
  have hwhole : whole message' order = whole message order :=
    List.flatMap_congr fun k hk => by rw [heq k (hne k hk)]
  refine ⟨order, m, part, hnd, hm, fun k hk => by rw [heq k (hne k hk)]; exact hne k hk, ?_,
    by rw [hout, hwhole]⟩
  by_cases hempty : message m = []
  · rw [hempty, List.prefix_nil] at hpart
    rw [hpart]
    exact List.nil_prefix
  · rw [heq m hempty]
    exact hpart

theorem getLast?_append_tag (out : List (Nat × α)) (m : Nat) {xs : List α} (hxs : xs ≠ []) :
    ∃ x, (out ++ tag m xs).getLast? = some (m, x) := by
  obtain ⟨x, hx⟩ := Option.ne_none_iff_exists'.mp (mt List.getLast?_eq_none_iff.mp hxs)
  refine ⟨x, ?_⟩
  have hne : tag m xs ≠ [] := mt List.map_eq_nil_iff.mp hxs
  rw [List.getLast?_append_of_ne_nil _ hne, tag, List.getLast?_map, hx]
  rfl

/-- In a contiguous output only the last message is written in part. -/
theorem Contiguous.written_eq {message : Nat → List α} {out : List (Nat × α)} {m : Nat}
    {xs : List α} (h : Contiguous message (out ++ tag m xs)) (hxs : xs ≠ []) {k : Nat}
    (hk : k ≠ m) : written k out = 0 ∨ written k out = (message k).length := by
  obtain ⟨order, j, part, hnd, hj, -, -, heq⟩ := h
  have hsum := congrArg (written k) heq
  rw [written_append, written_append, written_tag_ne (Ne.symm hk), Nat.add_zero] at hsum
  by_cases hmem : k ∈ order
  · have hjk : j ≠ k := fun he => hj (he ▸ hmem)
    rw [written_whole_of_mem hnd hmem, written_tag_ne hjk] at hsum
    exact Or.inr hsum
  · rw [written_whole_of_notMem hmem, Nat.zero_add] at hsum
    by_cases hjk : j = k
    · by_cases hpart : part = []
      · rw [hpart] at hsum
        exact Or.inl hsum
      · -- the output would end in two messages
        obtain ⟨x, hx⟩ := getLast?_append_tag out m hxs
        obtain ⟨y, hy⟩ := getLast?_append_tag (whole message order) j hpart
        rw [heq, hy] at hx
        exact absurd (hjk.symm.trans (Prod.mk.inj (Option.some.inj hx)).1) hk
    · rw [written_tag_ne hjk] at hsum
      exact Or.inl hsum

/-- The next elements of message `m`. -/
theorem contiguous_append_iff {message : Nat → List α} {out : List (Nat × α)} {m : Nat}
    {xs : List α} (h : Contiguous message out) (hxs : xs ≠ [])
    (hnext : (message m).take (written m out) ++ xs <+: message m) :
    Contiguous message (out ++ tag m xs) ↔
      ∀ k, k ≠ m → written k out = 0 ∨ written k out = (message k).length := by
  refine ⟨fun hout k hk => hout.written_eq hxs hk, fun hall => ?_⟩
  obtain ⟨order, j, part, hnd, hj, hne, hpart, rfl⟩ := h
  have hmore : written m (whole message order ++ tag j part) < (message m).length := by
    have hle := hnext.length_le
    have hpos := List.length_pos_iff.mpr hxs
    rw [List.length_append, List.length_take] at hle
    omega
  have hm : m ∉ order := by
    intro hm
    rw [written_append, written_whole_of_mem hnd hm] at hmore
    omega
  have hlen : ∀ k, k ∉ order → written k (whole message order ++ tag j part) =
      written k (tag j part) := by
    intro k hk
    rw [written_append, written_whole_of_notMem hk, Nat.zero_add]
  rw [hlen m hm] at hnext
  by_cases hjm : j = m
  · subst hjm
    rw [written_tag_self, ← List.prefix_iff_eq_take.mp hpart] at hnext
    refine ⟨order, j, part ++ xs, hnd, hj, hne, hnext, ?_⟩
    rw [List.append_assoc, tag, tag, tag, List.map_append]
  · rw [written_tag_ne hjm, List.take_zero, List.nil_append] at hnext
    have hfull := hall j hjm
    rw [hlen j hj, written_tag_self] at hfull
    by_cases hempty : part = []
    · refine ⟨order, m, xs, hnd, hm, hne, hnext, ?_⟩
      rw [hempty, tag, List.map_nil, List.append_nil]
    · have hpart' : part = message j :=
        hpart.eq_of_length (hfull.resolve_left (mt List.length_eq_zero_iff.mp hempty))
      refine ⟨order ++ [j], m, xs, ?_, ?_, ?_, hnext, ?_⟩
      · exact hnd.append (List.nodup_singleton j) (by simpa using hj)
      · rw [List.mem_append, List.mem_singleton, not_or]
        exact ⟨hm, Ne.symm hjm⟩
      · intro k hk
        rcases List.mem_append.mp hk with hk | hk
        · exact hne k hk
        · rw [List.mem_singleton.mp hk, ← hpart']
          exact hempty
      · rw [whole_append, hpart']
        simp [whole]

end BuxnLs.Lib
