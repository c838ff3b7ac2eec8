import Mathlib.Algebra.Group.Nat.Defs
import Mathlib.Data.List.Basic
import PeerScript.Proofs.Utf8

/-!
# Framed messages

A message in a frame is read back from any stream that begins with the frame, whatever its bytes are
and whatever follows, and nothing else is read from the front of a stream than a message whose frame
stands there.  So a stream is cut into messages in one way only, and where it cannot be cut any
further, what is left says why.
-/

set_option autoImplicit false

namespace PeerScript.Wire.Frame

variable {stream message rest : Bytes} {messages frames : List Bytes} {gap : Gap}

/-! ## Lengths -/

theorem length_number (count n : Nat) : (number count n).length = count := by
  induction count generalizing n with
  | zero => rfl
  | succ count ih => rw [number, List.length_cons, ih]

theorem value_number (count : Nat) {n : Nat} (small : n < 256 ^ count) :
    value (number count n) = n := by
  induction count generalizing n with
  | zero =>
      rw [Nat.pow_zero, Nat.lt_one_iff] at small
      rw [small]
      rfl
  | succ count ih =>
      have digits : n / 256 < 256 ^ count := by
        rw [Nat.div_lt_iff_lt_mul (by decide), ← Nat.pow_succ]
        exact small
      rw [number, value, ih digits, UInt8.toNat_ofNat']
      omega

theorem number_value (bytes : Bytes) : number bytes.length (value bytes) = bytes := by
  induction bytes with
  | nil => rfl
  | cons b bytes ih =>
      have byte := b.toNat_lt
      have low : UInt8.ofNat (b.toNat + 256 * value bytes) = b := by
        apply UInt8.toNat_inj.mp
        rw [UInt8.toNat_ofNat']
        omega
      have high : (b.toNat + 256 * value bytes) / 256 = value bytes := by omega
      rw [List.length_cons, value, number, low, high, ih]

/-- The length of a message that may be sent fits into four bytes. -/
theorem value_number_four (small : message.length ≤ maxMessage) :
    value (number 4 message.length) = message.length := by
  refine value_number 4 (Nat.lt_of_le_of_lt small ?_)
  decide

/-! ## One message -/

theorem write_of_le (small : message.length ≤ maxMessage) :
    write message = .ok (number 4 message.length ++ message) :=
  if_neg (Nat.not_lt_of_le small)

theorem write_of_lt (large : maxMessage < message.length) :
    write message = .error (tooLarge message.length) :=
  if_pos large

/-- A message is read back from its frame, whatever follows. -/
theorem read_append (small : message.length ≤ maxMessage) (rest : Bytes) :
    read (number 4 message.length ++ message ++ rest) = .ok (message, rest) := by
  have four : (number 4 message.length).length = 4 := length_number 4 _
  have enough : ¬ (number 4 message.length ++ message ++ rest).length < 4 := by
    simp only [List.length_append, four]
    omega
  rw [read, if_neg enough, List.append_assoc, List.take_left' four, List.drop_left' four]
  simp only [value_number_four small, if_neg (Nat.not_lt_of_le small), List.length_append,
    if_neg (Nat.not_lt_of_le (Nat.le_add_right message.length rest.length)), List.take_left,
      List.drop_left]

/-- What is read from the front of a stream stands there in a frame. -/
theorem eq_of_read (h : read stream = .ok (message, rest)) :
    message.length ≤ maxMessage ∧ stream = number 4 message.length ++ message ++ rest := by
  unfold read at h
  dsimp only at h
  split at h
  · cases h
  rename_i long
  split at h
  · cases h
  rename_i fits
  split at h
  · cases h
  rename_i whole
  cases h
  have length : ((stream.drop 4).take (value (stream.take 4))).length = value (stream.take 4) := by
    rw [List.length_take]
    omega
  have four : (stream.take 4).length = 4 := by
    rw [List.length_take]
    omega
  have opening : number 4 (value (stream.take 4)) = stream.take 4 := by
    have spelled := number_value (stream.take 4)
    rwa [four] at spelled
  rw [length, opening, List.append_assoc, List.take_append_drop, List.take_append_drop]
  exact ⟨Nat.le_of_not_lt fits, rfl⟩

/-- Why nothing can be read: the length of a message is not there, or is too large, or the message
is not there. -/
theorem gap_of_read (h : read stream = .error gap) :
    (stream.length < 4 ∧ gap = .shortLength) ∨
    (4 ≤ stream.length ∧ maxMessage < value (stream.take 4) ∧
      gap = .oversized (value (stream.take 4))) ∨
    (4 ≤ stream.length ∧ value (stream.take 4) ≤ maxMessage ∧
      stream.length < 4 + value (stream.take 4) ∧ gap = .shortBody) := by
  unfold read at h
  dsimp only at h
  split at h
  · rename_i short
    cases h
    exact .inl ⟨short, rfl⟩
  rename_i long
  split at h
  · rename_i large
    cases h
    exact .inr (.inl ⟨Nat.le_of_not_lt long, large, rfl⟩)
  rename_i fits
  split at h
  · rename_i short
    cases h
    rw [List.length_drop] at short
    exact .inr (.inr ⟨Nat.le_of_not_lt long, Nat.le_of_not_lt fits, by omega, rfl⟩)
  · cases h

/-! ## All messages -/

theorem readAll_of_ok (h : read stream = .ok (message, rest)) :
    readAll stream = (message :: (readAll rest).1, (readAll rest).2) := by
  rw [readAll]
  split
  · rename_i gap found
    cases h.symm.trans found
  · rename_i message' rest' found
    cases h.symm.trans found
    rfl

theorem readAll_of_error (h : read stream = .error gap) : readAll stream = ([], gap) := by
  rw [readAll]
  split
  · rename_i gap' found
    cases h.symm.trans found
    rfl
  · rename_i message rest found
    cases h.symm.trans found

theorem write_all_cons {message frame : Bytes} (written : write message = .ok frame)
    (all : messages.mapM write = .ok frames) :
    (message :: messages).mapM write = .ok (frame :: frames) := by
  rw [List.mapM_cons, written, all]
  rfl

/-- Messages that may be sent are read back from their frames, one after another. -/
theorem readAll_frames :
    ∀ {messages : List Bytes}, (∀ message ∈ messages, message.length ≤ maxMessage) →
    ∃ frames, messages.mapM write = .ok frames ∧ readAll frames.flatten = (messages, .shortLength)
  | [], _ => ⟨[], rfl, readAll_of_error rfl⟩
  | message :: messages, small => by
      obtain ⟨first, others⟩ := List.forall_mem_cons.mp small
      obtain ⟨frames, written, read⟩ := readAll_frames others
      refine ⟨_, write_all_cons (write_of_le first) written, ?_⟩
      rw [List.flatten_cons, readAll_of_ok (read_append first frames.flatten), read]

/-- The frames of what is read stand at the front of the stream, and nothing can be read from what
is left. -/
theorem frames_of_readAll (stream : Bytes) :
    ∃ frames rest, (readAll stream).1.mapM write = .ok frames ∧ stream = frames.flatten ++ rest ∧
      read rest = .error (readAll stream).2 := by
  cases cut : read stream with
  | error gap =>
      rw [readAll_of_error cut]
      exact ⟨[], stream, rfl, rfl, cut⟩
  | ok front =>
      obtain ⟨message, rest⟩ := front
      have _shorter := read_shorter cut
      obtain ⟨frames, left, written, shape, stops⟩ := frames_of_readAll rest
      obtain ⟨small, split⟩ := eq_of_read cut
      rw [readAll_of_ok cut]
      refine ⟨_, left, write_all_cons (write_of_le small) written, ?_, stops⟩
      rw [List.flatten_cons, List.append_assoc, ← shape]
      exact split
termination_by stream.length

end PeerScript.Wire.Frame

namespace PeerScript

open Wire (Bytes maxMessage)
open Wire.Frame (readAll value)

/-- Of a text that is too long for a frame nothing is written on any link. -/
theorem Network.links_of_send_tooLarge (n : Network) (i : Nat) (id : Peer.ConnectionId)
    {text : String} (waits : Bool) (large : maxMessage < (Text.Utf8.encode text).length) :
    ∃ fault n', Network.send i id text waits n = .error fault n' ∧ n'.links = n.links := by
  unfold Network.send
  cases (n.peer i).remote id with
  | error fault => exact ⟨fault, n, rfl, rfl⟩
  | ok remote =>
      dsimp only
      rw [Network.write, Wire.Frame.write_of_lt large]
      exact ⟨_, _, rfl, rfl⟩

/-- Messages that may be sent are read back from the concatenation of their frames, and then the
stream has ended.  What is read from any stream are messages whose frames the stream begins with,
and the reading stops at the rest for the reason that the rest shows.  A message that is too large
has no frame, and nothing of it is written. -/
theorem framing_exact :
    (∀ messages : List Bytes, (∀ message ∈ messages, message.length ≤ maxMessage) →
      ∃ frames gap reason, messages.mapM Wire.Frame.write = .ok frames ∧
        readAll frames.flatten = (messages, gap) ∧ gap.fault = .transport reason) ∧
    (∀ stream : Bytes, ∃ frames rest, (readAll stream).1.mapM Wire.Frame.write = .ok frames ∧
      stream = frames.flatten ++ rest ∧
      ((∃ reason, (readAll stream).2.fault = .protocol reason) ↔
        4 ≤ rest.length ∧ maxMessage < value (rest.take 4)) ∧
      ((∃ reason, (readAll stream).2.fault = .transport reason) ↔
        rest.length < 4 ∨ value (rest.take 4) ≤ maxMessage ∧
        rest.length < 4 + value (rest.take 4))) ∧
    ∀ message : Bytes, maxMessage < message.length →
      Wire.Frame.write message = .error (Wire.tooLarge message.length) ∧
      ∀ (n : Network) (i : Nat) (id : Peer.ConnectionId) (text : String) (waits : Bool),
        Text.Utf8.encode text = message →
        ∃ fault n', Network.send i id text waits n = .error fault n' ∧ n'.links = n.links := by
  refine ⟨fun messages small => ?_, fun stream => ?_,
    fun message large => ⟨Wire.Frame.write_of_lt large, ?_⟩⟩
  · obtain ⟨frames, written, read⟩ := Wire.Frame.readAll_frames small
    exact ⟨frames, _, _, written, read, rfl⟩
  · obtain ⟨frames, rest, written, shape, stops⟩ := Wire.Frame.frames_of_readAll stream
    refine ⟨frames, rest, written, shape, ?_⟩
    rcases Wire.Frame.gap_of_read stops with ⟨short, gap⟩ | ⟨long, large, gap⟩
        | ⟨long, fits, short, gap⟩
    · rw [gap]
      refine ⟨⟨fun ⟨_, fault⟩ => (nomatch fault),
        fun ⟨long, _⟩ => absurd short (Nat.not_lt_of_le long)⟩, ?_⟩
      exact ⟨fun _ => .inl short, fun _ => ⟨_, rfl⟩⟩
    · rw [gap]
      refine ⟨⟨fun _ => ⟨long, large⟩, fun _ => ⟨_, rfl⟩⟩, ⟨fun ⟨_, fault⟩ => (nomatch fault), ?_⟩⟩
      rintro (short | ⟨fits, -⟩)
      · exact absurd short (Nat.not_lt_of_le long)
      · exact absurd large (Nat.not_lt_of_le fits)
    · rw [gap]
      refine ⟨⟨fun ⟨_, fault⟩ => (nomatch fault),
        fun ⟨_, large⟩ => absurd large (Nat.not_lt_of_le fits)⟩, ?_⟩
      exact ⟨fun _ => .inr ⟨fits, short⟩, fun _ => ⟨_, rfl⟩⟩
  · rintro n i id text waits rfl
    exact Network.links_of_send_tooLarge n i id waits large

/-- A text of as many ones. -/
def ones (count : Nat) : String := String.ofList (List.replicate count '1')

theorem length_encode_ones (count : Nat) : (Text.Utf8.encode (ones count)).length = count := by
  have one : '1'.utf8Size = 1 := rfl
  rw [Text.Utf8.length_encode, ones]
  simp [String.utf8ByteSize, List.utf8Encode, List.length_flatMap, one]

/-- Two messages, of which one looks like the front of a frame and one is empty; streams that end
with a length that is too large and in a message; and a text of one byte too many. -/
theorem framing_exact_empty :
    ((∀ message ∈ [[5, 0, 0, 0, 1], ([] : Bytes)], message.length ≤ maxMessage) ∧
      ∃ frames gap reason, [[5, 0, 0, 0, 1], ([] : Bytes)].mapM Wire.Frame.write = .ok frames ∧
        readAll frames.flatten = ([[5, 0, 0, 0, 1], []], gap) ∧ gap.fault = .transport reason) ∧
    ((readAll [1, 0, 0, 0, 7, 255, 255, 255, 255, 0]).1 = [[7]] ∧
      ∃ reason, (readAll [1, 0, 0, 0, 7, 255, 255, 255, 255, 0]).2.fault = .protocol reason) ∧
    ((readAll [1, 0, 0, 0, 7, 2, 0, 0, 0, 9]).1 = [[7]] ∧
      ∃ reason, (readAll [1, 0, 0, 0, 7, 2, 0, 0, 0, 9]).2.fault = .transport reason) ∧
    maxMessage < (Text.Utf8.encode (ones (maxMessage + 1))).length ∧
    ∃ fault n', Network.send 0 1 (ones (maxMessage + 1)) true (.empty true) = .error fault n' ∧
      n'.links = #[] := by
  have small : ∀ message ∈ [[5, 0, 0, 0, 1], ([] : Bytes)], message.length ≤ maxMessage := by decide
  have large : maxMessage < (Text.Utf8.encode (ones (maxMessage + 1))).length := by
    rw [length_encode_ones]
    exact Nat.lt_succ_self _
  -- behind the message of one byte the rest is what the general theorem speaks of
  have cut : ∀ {rest : Bytes} {gap : Wire.Frame.Gap}, Wire.Frame.read rest = .error gap →
      (readAll ([1, 0, 0, 0, 7] ++ rest)).1 = [[7]] ∧
      ((∃ reason, (readAll ([1, 0, 0, 0, 7] ++ rest)).2.fault = .protocol reason) ↔
        4 ≤ rest.length ∧ maxMessage < value (rest.take 4)) ∧
      ((∃ reason, (readAll ([1, 0, 0, 0, 7] ++ rest)).2.fault = .transport reason) ↔
        rest.length < 4 ∨ value (rest.take 4) ≤ maxMessage ∧
        rest.length < 4 + value (rest.take 4)) := by
    intro rest gap stops
    have messages : (readAll ([1, 0, 0, 0, 7] ++ rest)).1 = [[7]] := by
      have front : Wire.Frame.read ([1, 0, 0, 0, 7] ++ rest) = .ok ([7], rest) :=
        @Wire.Frame.read_append [7] (by decide) rest
      rw [Wire.Frame.readAll_of_ok front, Wire.Frame.readAll_of_error stops]
    obtain ⟨frames, left, written, shape, reasons⟩ := framing_exact.2.1 ([1, 0, 0, 0, 7] ++ rest)
    rw [messages] at written
    obtain rfl : [[1, 0, 0, 0, 7]] = frames := Except.ok.inj written
    obtain rfl : rest = left := List.append_cancel_left shape
    exact ⟨messages, reasons⟩
  refine ⟨⟨small, framing_exact.1 _ small⟩, ?_, ?_, large,
    (framing_exact.2.2 _ large).2 _ 0 1 _ true rfl⟩
  · obtain ⟨messages, tooLarge, -⟩ := @cut [255, 255, 255, 255, 0] _ rfl
    exact ⟨messages, tooLarge.mpr (by decide)⟩
  · obtain ⟨messages, -, short⟩ := @cut [2, 0, 0, 0, 9] _ rfl
    exact ⟨messages, short.mpr (.inr (by decide))⟩

end PeerScript
