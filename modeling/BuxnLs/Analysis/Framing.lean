/-
  Writer and reader of the framing, and the size of the receive buffer. A header that fits its
  32 bytes is a block of one plain line, so reading takes exactly the bytes of one message, and a
  stream of messages is read back as it was written. The size of the buffer is a sum in
  `size_t` arithmetic: it is enough exactly outside of a window of lengths where the sum wraps.
-/
import BuxnLs.Analysis.Header
import BuxnLs.Lib.Run

namespace BuxnLs.Analysis

open BuxnLs.Lib BuxnLs.Model

/-! ## Round trip -/

theorem ascii_toString (n : Nat) : ascii (toString n) = digits n := by
  unfold ascii digits
  rw [Nat.toString_eq_repr, Nat.toList_repr]

theorem plain_digits {n : Nat} (h : n < 2 ^ 64) : Plain (digits n) where
  ne_nil := digits_ne_nil n
  digits := fun _ hch => isDigit_of_mem_digits hch
  value_lt := by rw [digitsValue_digits]; exact h

/-- A header that fits is written as it is. -/
theorem headerBytes_of_fits {contentLength : Nat} (h : (headerText contentLength).length < 32)
    (stack : Str) : headerBytes stack contentLength = headerText contentLength := by
  have htake : (headerText contentLength).take (32 - 1) = headerText contentLength :=
    List.take_of_length_le (by omega)
  unfold headerBytes snprintf
  dsimp only
  rw [htake, List.append_assoc, List.take_left]

theorem length_headerText (n : Nat) : (headerText n).length = 20 + (digits n).length := by
  unfold headerText
  rw [ascii_toString]
  simp only [List.length_append, List.length_cons, List.length_nil]
  have hfield : lengthField.length = 16 := by decide
  omega

/-- The lengths whose header fits. -/
theorem headerText_fits_iff (n : Nat) : (headerText n).length < 32 ↔ n < 10 ^ 11 := by
  rw [← length_digits_le_iff (by decide), length_headerText]
  omega

theorem cr_notMem_line (n : Nat) : cr ∉ lengthField ++ digits n := by
  rw [List.mem_append, not_or]
  exact ⟨by decide, fun h => absurd (isDigit_of_mem_digits h) (by decide)⟩

/-- The header of a length is a block of one line. -/
theorem accepted_headerText {n : Nat} (hpos : 0 < n) (hlt : n < 2 ^ 64) (rest : Str) :
    Accepted 0 (headerText n ++ rest) n rest [lengthField ++ digits n] [] := by
  have hplain : Plain (digits n) := plain_digits hlt
  have hzero : (0 : UInt8) ∉ lengthField ++ digits n := by
    rw [List.mem_append, not_or]
    exact ⟨by decide, hplain.notMem_zero⟩
  have hvalues : [lengthField ++ digits n].filterMap valueOf = [digits n] :=
    List.filterMap_cons_some (valueOf_append _)
  have hdigits : (digits n).length ≤ 20 := (length_digits_le_iff (by decide)).mpr (by omega)
  refine ⟨⟨?_, ?_, List.not_mem_nil, rfl⟩, ?_, Nat.zero_le _, ?_, Nat.ne_of_gt hpos⟩
  · unfold headerText
    rw [ascii_toString, joinLines_cons, joinLines_nil, List.append_nil, List.nil_append,
      List.append_assoc]
  · intro l hl
    obtain rfl := List.mem_singleton.mp hl
    refine ⟨cr_notMem_line n, fun hempty => ?_⟩
    rw [LooksEmpty, cStr_of_notMem hzero] at hempty
    exact digits_ne_nil n (List.append_eq_nil_iff.mp hempty).2
  · intro l hl
    obtain rfl := List.mem_singleton.mp hl
    have hfield : lengthField.length = 16 := by decide
    rw [List.length_append]
    omega
  · refine (linesEffect_plain (Nat.ne_of_gt hpos) fun v hv => ?_).mpr ?_
    · rw [hvalues] at hv
      exact List.mem_singleton.mp hv ▸ hplain
    · rw [hvalues]
      exact ⟨digits n, rfl, digitsValue_digits n⟩

theorem recvMsgHeader_headerText (lineBuf : Vector UInt8 1024) {n : Nat} (hpos : 0 < n)
    (hlt : n < 2 ^ 64) (rest : Str) :
    (recvMsgHeader lineBuf (headerText n ++ rest)).1 = some (n, rest) :=
  (recvMsgHeader_iff lineBuf).mpr ⟨_, _, accepted_headerText hpos hlt rest⟩

/-- Reading takes exactly the bytes of one message. -/
theorem recvMsg_sendMsg (y : Yyjson) (lineBuf : Vector UInt8 1024) (recvBuf : RecvBuf)
    {body : Str} (hpos : 0 < body.length) (hfits : (headerText body.length).length < 32)
    (stack rest : Str) :
    recvMsg y lineBuf recvBuf (sendMsg stack body ++ rest) =
      (some (body, rest), recvBuf.resize y body.length) := by
  have hsmall := (headerText_fits_iff body.length).mp hfits
  have hheader := recvMsgHeader_headerText lineBuf hpos (by omega) (body ++ rest)
  unfold recvMsg sendMsg
  rw [headerBytes_of_fits hfits, List.append_assoc, hheader]
  dsimp only
  rw [if_neg (by rw [List.length_append]; omega), List.take_left, List.drop_left]

/-- The bytes of successive messages are read back as their bodies, and nothing behind them is
    read. -/
theorem framing_round_trip (y : Yyjson) (recvBuf : RecvBuf) (sends : List (Str × Str))
    (lineBufs : List (Vector UInt8 1024)) (hlen : lineBufs.length = sends.length)
    (hsends : ∀ send ∈ sends, 1 ≤ send.2.length ∧ (headerText send.2.length).length < 32)
    (tail : Str) :
    recvMsgs y lineBufs recvBuf (sends.flatMap (fun send => sendMsg send.1 send.2) ++ tail) =
      some (sends.map Prod.snd, tail) := by
  induction sends generalizing recvBuf lineBufs with
  | nil =>
      obtain rfl := List.length_eq_zero_iff.mp hlen
      rfl
  | cons send sends ih =>
      obtain ⟨lineBuf, lineBufs, rfl⟩ := List.exists_cons_of_length_eq_add_one hlen
      obtain ⟨hpos, hfits⟩ := hsends send List.mem_cons_self
      have hone := recvMsg_sendMsg y lineBuf recvBuf hpos hfits send.1
        (sends.flatMap (fun send => sendMsg send.1 send.2) ++ tail)
      have hrest := ih (recvBuf.resize y send.2.length) lineBufs (Nat.succ.inj hlen)
        fun s hs => hsends s (List.mem_cons_of_mem _ hs)
      rw [List.flatMap_cons, List.append_assoc, recvMsgs, hone]
      dsimp only
      rw [hrest]
      rfl

/-- Two bodies, the second one with a header in it. -/
theorem framing_round_trip_two :
    recvMsgs documentedYyjson [.replicate 1024 0, .replicate 1024 0] .init
      ([([], ascii "{}"), ([], [cr, lf, cr, lf] ++ headerText 3)].flatMap
        (fun send : Str × Str => sendMsg send.1 send.2) ++ []) =
      some ([([], ascii "{}"), ([], [cr, lf, cr, lf] ++ headerText 3)].map
        (Prod.snd : Str × Str → Str), []) :=
  framing_round_trip documentedYyjson .init _ _ rfl (by decide) []

/-! ## The size of the buffer -/

theorem strtoull_value_lt (s : Str) : (strtoull s).value < 2 ^ 64 := by
  unfold strtoull
  dsimp only
  generalize (if (s.dropWhile isSpace).head? = some 0x2d ∨ (s.dropWhile isSpace).head? = some 0x2b
    then (s.dropWhile isSpace).drop 1 else s.dropWhile isSpace) = unsigned
  split
  · exact Nat.two_pow_pos 64
  · split
    · exact Nat.sub_lt (Nat.two_pow_pos 64) Nat.one_pos
    · rename_i hlt
      dsimp only
      split
      · exact Nat.mod_lt _ (Nat.two_pow_pos 64)
      · exact Nat.not_le.mp hlt

/-- The receive buffer, and the length of the message it was last resized for. -/
structure Receiving where
  recvBuf : RecvBuf
  contentLength : Option Nat

def Receiving.init : Receiving := ⟨.init, none⟩

/-- The resize step for a length that a header announces. -/
def receiveStep (y : Yyjson) (s : Receiving) (contentLength : Nat) : Option Receiving :=
  if 0 < contentLength ∧ contentLength < 2 ^ 64 then
    some ⟨s.recvBuf.resize y contentLength, some contentLength⟩
  else none

/-- The step takes the lengths that some header announces. -/
theorem receiveStep_isSome_iff (y : Yyjson) (s : Receiving) (n : Nat) :
    (receiveStep y s n).isSome ↔
      ∃ lineBuf input rest, (recvMsgHeader lineBuf input).1 = some (n, rest) := by
  have hguard : (receiveStep y s n).isSome ↔ 0 < n ∧ n < 2 ^ 64 := by
    unfold receiveStep
    split
    · exact iff_of_true rfl ‹_›
    · exact iff_of_false Bool.false_ne_true ‹_›
  rw [hguard]
  constructor
  · rintro ⟨hpos, hlt⟩
    have hread := recvMsgHeader_headerText (.replicate 1024 0) hpos hlt []
    exact ⟨_, _, _, hread⟩
  · rintro ⟨lineBuf, input, rest, h⟩
    obtain ⟨ls, z, hacc⟩ := (recvMsgHeader_iff lineBuf).mp h
    refine ⟨Nat.pos_of_ne_zero hacc.pos, ?_⟩
    rw [(linesEffect_iff.mp hacc.effect).2]
    cases (seenValues ls).getLast? with
    | none => decide
    | some v => exact strtoull_value_lt v

/-- The buffer has room for the message and behind it for the pool of its parser. -/
def HoldsMessage (y : Yyjson) (s : Receiving) : Prop :=
  ∀ n ∈ s.contentLength, n + y.readMaxMemoryUsage n ≤ s.recvBuf.size

/-- The memory usage and the length add up to a `size_t`, or the usage itself is none and counts
    as 0. -/
def FitsSize (n : Nat) : Prop := 13 * n + 256 < 2 ^ 64 ∨ 2 ^ 64 ≤ 12 * n + 256

theorem le_size_resize (y : Yyjson) (recvBuf : RecvBuf) (n : Nat) :
    requiredRecvBufSize y n ≤ (recvBuf.resize y n).size := by
  unfold RecvBuf.resize
  split
  · exact Nat.le_refl _
  · omega

/-- After the resize step the buffer is large enough exactly when the sizes add up. -/
theorem resize_holds_iff (y : Yyjson) (recvBuf : RecvBuf) {n : Nat} (hn : n < 2 ^ 64) :
    n + y.readMaxMemoryUsage n ≤ (recvBuf.resize y n).size ↔ FitsSize n := by
  have hle := le_size_resize y recvBuf n
  have hlt := (recvBuf.resize y n).size_lt
  unfold requiredRecvBufSize at hle
  unfold FitsSize
  rw [y.readMaxMemoryUsage_eq] at hle ⊢
  split
  · rename_i husage
    rw [if_pos husage] at hle
    constructor
    · intro hholds
      omega
    · rintro (hsum | husage')
      · rw [Nat.mod_eq_of_lt (by omega)] at hle
        omega
      · exact absurd husage (Nat.not_lt.mpr husage')
  · rename_i husage
    rw [if_neg husage, Nat.zero_add, Nat.mod_eq_of_lt hn] at hle
    exact ⟨fun _ => Or.inr (by omega), fun _ => by omega⟩

theorem receiveStep_holds_iff {y : Yyjson} {s t : Receiving} {n : Nat}
    (h : receiveStep y s n = some t) : HoldsMessage y t ↔ FitsSize n := by
  unfold receiveStep at h
  split at h
  · rename_i hn
    obtain rfl := Option.some.inj h
    rw [← resize_holds_iff y s.recvBuf hn.2]
    exact ⟨fun hholds => hholds n rfl, fun hle m hm => Option.some.inj hm ▸ hle⟩
  · exact absurd h (by simp)

/-- The buffer holds every message of a sequence exactly when the size of each is a `size_t`. -/
theorem buffer_holds_iff (y : Yyjson) {lengths : List Nat}
    (hrun : (run (receiveStep y) .init lengths).isSome) :
    Always (receiveStep y) (HoldsMessage y) .init lengths ↔ ∀ n ∈ lengths, FitsSize n := by
  rw [← meets_iff_forall_mem hrun]
  refine always_iff_meets (fun s n t _ h => receiveStep_holds_iff h) ?_ hrun
  exact fun n hn => absurd hn (by simp [Receiving.init])

theorem buffer_holds_two :
    Always (receiveStep documentedYyjson) (HoldsMessage documentedYyjson) .init [100, 2 ^ 63] ↔
      ∀ n ∈ [100, 2 ^ 63], FitsSize n :=
  buffer_holds_iff documentedYyjson (by decide)

/-- A message of `1500000000000000000` bytes: the sum wraps. -/
theorem buffer_too_small :
    ¬ Always (receiveStep documentedYyjson) (HoldsMessage documentedYyjson) .init
      [1500000000000000000] := by
  intro h
  have hstep : receiveStep documentedYyjson .init 1500000000000000000 =
      some ⟨RecvBuf.init.resize documentedYyjson 1500000000000000000,
        some 1500000000000000000⟩ :=
    if_pos (by decide)
  have hrun : run (receiveStep documentedYyjson) .init [1500000000000000000] =
      some ⟨RecvBuf.init.resize documentedYyjson 1500000000000000000,
        some 1500000000000000000⟩ := by
    rw [run_cons, hstep, Option.bind_some, run_nil]
  have hholds := h [1500000000000000000] List.prefix_rfl _ hrun _ rfl
  have hfits := (resize_holds_iff documentedYyjson .init (by decide)).mp hholds
  unfold FitsSize at hfits
  omega

end BuxnLs.Analysis
