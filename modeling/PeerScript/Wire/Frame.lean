import PeerScript.Fault
import PeerScript.Text.Utf8

/-!
# Frames

A message travels as its length in four bytes, the lowest one first, and its bytes.  `read` takes
one message from the front of a stream, and `readAll` takes all that are there.
-/

set_option autoImplicit false

namespace PeerScript.Wire

/-- The bytes of a stream. -/
abbrev Bytes := List UInt8

/-- The largest number of bytes in a message. -/
def maxMessage : Nat := 64 * 1024 * 1024

/-- The fault of a message that is too large. -/
def tooLarge (length : Nat) : Fault :=
  .protocol ("Message too large: " ++ toString length ++ " bytes")

namespace Frame

/-- A number in the given count of bytes, the lowest one first. -/
def number : Nat → Nat → Bytes
  | 0, _ => []
  | count + 1, n => UInt8.ofNat n :: number count (n / 256)

/-- The number that bytes stand for, the lowest one first. -/
def value : Bytes → Nat
  | [] => 0
  | b :: rest => b.toNat + 256 * value rest

/-- The frame of a message.  Nothing is written of a message that is too large. -/
def write (message : Bytes) : Except Fault Bytes :=
  if maxMessage < message.length then .error (tooLarge message.length)
  else .ok (number 4 message.length ++ message)

/-- Why there is no message at the front of a stream. -/
inductive Gap where
  /-- a length that no message may have -/
  | oversized (length : Nat)
  /-- fewer bytes than the length takes -/
  | shortLength
  /-- fewer bytes than the length announces -/
  | shortBody
  deriving DecidableEq, Repr

namespace Gap

/-- Whether more bytes may end the gap. -/
def mayClose : Gap → Bool
  | oversized _ => false
  | shortLength | shortBody => true

/-- The fault of a stream that ends with a gap. -/
def fault : Gap → Fault
  | oversized length => tooLarge length
  | shortLength => .transport "TCP read length failed: early eof"
  | shortBody => .transport "TCP read data failed: early eof"

end Gap

/-- Reads the front of a stream: a message, and the stream behind it. -/
def read (stream : Bytes) : Except Gap (Bytes × Bytes) :=
  if stream.length < 4 then .error .shortLength
  else
    let length := value (stream.take 4)
    let body := stream.drop 4
    if maxMessage < length then .error (.oversized length)
    else if body.length < length then .error .shortBody
    else .ok (body.take length, body.drop length)

theorem read_shorter {stream message rest : Bytes} (h : read stream = .ok (message, rest)) :
    rest.length < stream.length := by
  unfold read at h
  simp only at h
  split at h
  · cases h
  · split at h
    · cases h
    · split at h
      · cases h
      · cases h
        simp only [List.length_drop]
        omega

/-- The messages of a stream, and the gap at which reading stops. -/
def readAll (stream : Bytes) : List Bytes × Gap :=
  match h : read stream with
  | .error gap => ([], gap)
  | .ok (message, rest) =>
      have _shorter := read_shorter h
      let (messages, gap) := readAll rest
      (message :: messages, gap)
termination_by stream.length
decreasing_by exact _shorter

end Frame

/-- The text of a message for logs: at most 200 characters of it. -/
def preview (message : Bytes) : String := String.ofList ((Text.Utf8.decodeLossy message).take 200)

end PeerScript.Wire
