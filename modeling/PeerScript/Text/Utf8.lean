/-!
# Reading UTF-8

`decode?` accepts well-formed text only.  `decodeLossy` accepts all bytes: where no character can be
read, the longest run that begins a well-formed sequence (one byte if there is none) is read as the
replacement character U+FFFD.
-/

set_option autoImplicit false

namespace PeerScript.Text.Utf8

/-- The character read in place of bytes that are no text. -/
def replacement : Char := '\uFFFD'

/-- How many bytes follow a first byte, and the bounds of the byte next to it.  A first byte of one
of the other kinds begins no sequence. -/
def continuation? (first : Nat) : Option (Nat × Nat × Nat) :=
  if 0xC2 ≤ first && first ≤ 0xDF then some (1, 0x80, 0xBF)
  else if first == 0xE0 then some (2, 0xA0, 0xBF)
  else if first == 0xED then some (2, 0x80, 0x9F)
  else if 0xE1 ≤ first && first ≤ 0xEF then some (2, 0x80, 0xBF)
  else if first == 0xF0 then some (3, 0x90, 0xBF)
  else if 0xF1 ≤ first && first ≤ 0xF3 then some (3, 0x80, 0xBF)
  else if first == 0xF4 then some (3, 0x80, 0x8F)
  else none

/-- Reads `count` more bytes of a sequence whose bits so far are `code`.  The second part of the
result is the number of bytes that fit. -/
def tail? (count low high code : Nat) (bytes : List UInt8) : Option Nat × Nat :=
  match count, bytes with
  | 0, _ => (some code, 0)
  | _ + 1, [] => (none, 0)
  | count + 1, b :: rest =>
      if low ≤ b.toNat && b.toNat ≤ high then
        let (read, used) := tail? count 0x80 0xBF (code * 64 + b.toNat % 64) rest
        (read, used + 1)
      else (none, 0)

/-- The character that begins with the byte `first`, if there is one, and the number of bytes after
`first` that belong to it. -/
def next (first : UInt8) (rest : List UInt8) : Option Char × Nat :=
  if first.toNat < 0x80 then (some (Char.ofNat first.toNat), 0)
  else
    match continuation? first.toNat with
    | none => (none, 0)
    | some (count, low, high) =>
        let lead := first.toNat % (if count = 1 then 32 else if count = 2 then 16 else 8)
        let (read, used) := tail? count low high lead rest
        (read.map Char.ofNat, used)

/-- The text of all bytes; what is no text is read as U+FFFD. -/
def decodeLossy : List UInt8 → List Char
  | [] => []
  | b :: rest => ((next b rest).1.getD replacement) :: decodeLossy (rest.drop (next b rest).2)
termination_by bytes => bytes.length
decreasing_by simp only [List.length_drop, List.length_cons]; omega

/-- The text of well-formed bytes. -/
def decode? : List UInt8 → Option (List Char)
  | [] => some []
  | b :: rest =>
      match (next b rest).1 with
      | none => none
      | some c => (decode? (rest.drop (next b rest).2)).map (c :: ·)
termination_by bytes => bytes.length
decreasing_by simp only [List.length_drop, List.length_cons]; omega

/-- The bytes of a text. -/
def encode (text : String) : List UInt8 := text.toUTF8.toList

end PeerScript.Text.Utf8
