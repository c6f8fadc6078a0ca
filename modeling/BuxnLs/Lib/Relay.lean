/-
  A loop that copies one stream to another through a buffer. Reads and writes may be short and
  either may fail, which ends the loop. `run_relay`: what was fed in is always what came out, what
  is in the buffer and what has not been read, in this order.
-/
import Mathlib.Data.List.Infix
import BuxnLs.Lib.Run

namespace BuxnLs.Lib

variable {α : Type}

structure Relay (α : Type) where
  /-- What has not been read. -/
  input : List α
  /-- What has been read and not written. -/
  chunk : List α
  output : List α
  running : Bool

def Relay.init : Relay α := ⟨[], [], [], true⟩

/-- `feed` is the world that writes to the input; the others are results of the two calls of the
    loop. -/
inductive RelayLabel (α : Type) where
  | feed (xs : List α)
  | read (count : Nat)
  | readFailed
  | write (count : Nat)
  | writeFailed

def relayStep (bufSize : Nat) (r : Relay α) : RelayLabel α → Option (Relay α)
  | .feed xs => some { r with input := r.input ++ xs }
  | .read count =>
    if r.running ∧ r.chunk = [] ∧ 0 < count ∧ count ≤ bufSize ∧ count ≤ r.input.length then
      some { r with input := r.input.drop count, chunk := r.input.take count }
    else none
  | .readFailed => if r.running ∧ r.chunk = [] then some { r with running := false } else none
  | .write count =>
    if r.running ∧ 0 < count ∧ count ≤ r.chunk.length then
      some { r with
        chunk := r.chunk.drop count, output := r.output ++ r.chunk.take count }
    else none
  | .writeFailed => if r.running ∧ r.chunk ≠ [] then some { r with running := false } else none

/-- What a label feeds in. -/
def RelayLabel.fed : RelayLabel α → List α
  | .feed xs => xs
  | _ => []

/-- All that has been fed in, in order. -/
def Relay.content (r : Relay α) : List α := r.output ++ r.chunk ++ r.input

/-- The buffer holds its bytes, and they are all there. -/
structure Relay.Carries (bufSize : Nat) (fed : List α) (r : Relay α) : Prop where
  content : r.content = fed
  bounded : r.chunk.length ≤ bufSize

theorem Relay.carries_init (bufSize : Nat) : (Relay.init : Relay α).Carries bufSize [] :=
  ⟨rfl, Nat.zero_le _⟩

theorem Relay.Carries.step {bufSize : Nat} {fed : List α} {r t : Relay α} {l : RelayLabel α}
    (h : r.Carries bufSize fed) (hstep : relayStep bufSize r l = some t) :
    t.Carries bufSize (fed ++ l.fed) := by
  obtain ⟨hcontent, hbounded⟩ := h
  unfold Relay.content at hcontent
  cases l with
  | feed xs =>
      cases hstep
      exact ⟨by simp only [Relay.content, RelayLabel.fed, ← hcontent, List.append_assoc], hbounded⟩
  | read count =>
      simp only [relayStep] at hstep
      split at hstep
      · rename_i hc
        obtain ⟨-, hempty, -, hle, -⟩ := hc
        cases hstep
        refine ⟨?_, (List.length_take_le _ _).trans hle⟩
        rw [hempty, List.append_nil] at hcontent
        simp only [Relay.content, RelayLabel.fed, List.append_assoc, List.take_append_drop,
          List.append_nil, hcontent]
      · cases hstep
  | readFailed =>
      simp only [relayStep] at hstep
      split at hstep
      · cases hstep
        exact ⟨hcontent.trans (List.append_nil fed).symm, hbounded⟩
      · cases hstep
  | write count =>
      simp only [relayStep] at hstep
      split at hstep
      · cases hstep
        refine ⟨?_, by rw [List.length_drop]; omega⟩
        have hwhole : r.output ++ r.chunk.take count ++ r.chunk.drop count =
            r.output ++ r.chunk := by
          rw [List.append_assoc, List.take_append_drop]
        simp only [Relay.content, RelayLabel.fed, hwhole, List.append_nil, hcontent]
      · cases hstep
  | writeFailed =>
      simp only [relayStep] at hstep
      split at hstep
      · cases hstep
        exact ⟨hcontent.trans (List.append_nil fed).symm, hbounded⟩
      · cases hstep

theorem Relay.Carries.output_prefix {bufSize : Nat} {fed : List α} {r : Relay α}
    (h : r.Carries bufSize fed) : r.output <+: fed := by
  rw [← h.content]
  exact ⟨r.chunk ++ r.input, by rw [Relay.content, List.append_assoc]⟩

end BuxnLs.Lib
