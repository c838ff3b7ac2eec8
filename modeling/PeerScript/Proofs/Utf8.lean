import PeerScript.Network.Serve

/-!
# Texts come back from their bytes

The bytes of a text are those of its characters, and each character is read back from them.  So what
is received of a text is the text itself.
-/

set_option autoImplicit false

namespace PeerScript

open Wire (Bytes)

namespace Text.Utf8

/-! ## Bytes -/

theorem toList_eq (bytes : ByteArray) : bytes.toList = bytes.data.toList := by
  have walked : ∀ (i : Nat) (passed : List UInt8), i ≤ bytes.size →
      ByteArray.toList.loop bytes i passed = passed.reverse ++ bytes.data.toList.drop i := by
    intro i passed le
    fun_induction ByteArray.toList.loop bytes i passed with
    | case1 i passed lt ih =>
        have here : bytes.data.toList.drop i = bytes.get! i :: bytes.data.toList.drop (i + 1) := by
          rw [List.drop_eq_getElem_cons (by simpa using lt)]
          congr 1
          simp [ByteArray.get!, lt]
        rw [ih lt, here, List.reverse_cons, List.append_assoc]
        rfl
    | case2 i passed done =>
        rw [List.drop_eq_nil_of_le (by simpa using done), List.append_nil]
  exact walked 0 [] (Nat.zero_le _)

/-- The bytes of a text are those of its characters. -/
theorem encode_eq (text : String) : encode text = text.toList.flatMap String.utf8EncodeChar := by
  rw [encode, toList_eq, String.toUTF8, ← String.utf8Encode_toList, List.utf8Encode,
    List.toList_data_toByteArray]

/-- The bytes of a text are as many as its size says. -/
theorem length_encode (text : String) : (encode text).length = text.utf8ByteSize := by
  rw [encode, toList_eq]
  rfl

/-! ## Characters -/

variable {count low high code d : Nat}

/-- A byte that fits is one of the bytes that follow. -/
theorem tail?_fits (small : d < 64) (least : low ≤ d + 0x80) (most : d + 0x80 ≤ high)
    (rest : List UInt8) : tail? (count + 1) low high code (UInt8.ofNat (d + 0x80) :: rest) =
      ((tail? count 0x80 0xBF (code * 64 + d) rest).1,
        (tail? count 0x80 0xBF (code * 64 + d) rest).2 + 1) := by
  have byte : (UInt8.ofNat (d + 0x80)).toNat = d + 0x80 := by
    rw [UInt8.toNat_ofNat']
    omega
  have bits : (d + 0x80) % 64 = d := by omega
  rw [tail?, byte, bits]
  simp [least, most]

/-- The bytes that begin a sequence. -/
theorem continuation?_two : ∀ k < 32, 2 ≤ k →
    continuation? (k + 0xC0) = some (1, 0x80, 0xBF) := by decide

theorem continuation?_three : ∀ k < 16, continuation? (k + 0xE0) =
    some (2, if k = 0 then 0xA0 else 0x80, if k = 13 then 0x9F else 0xBF) := by decide

theorem continuation?_four : ∀ k < 5, continuation? (k + 0xF0) =
    some (3, if k = 0 then 0x90 else 0x80, if k = 4 then 0x8F else 0xBF) := by decide

/-- A sequence is read to its end behind a byte that begins it. -/
theorem next_sequence {first : Nat} (byte : first < 256) (large : 0x80 ≤ first)
    (kind : continuation? first = some (count, low, high)) {code used : Nat} {rest : List UInt8}
    (read : tail? count low high
      (first % (if count = 1 then 32 else if count = 2 then 16 else 8)) rest = (some code, used)) :
    next (UInt8.ofNat first) rest = (some (Char.ofNat code), used) := by
  have back : (UInt8.ofNat first).toNat = first := by
    rw [UInt8.toNat_ofNat']
    omega
  simp only [next, back, if_neg (Nat.not_lt_of_le large), kind, read, Option.map_some]

/-- A character is read back from its bytes, whatever follows. -/
theorem next_utf8EncodeChar (c : Char) (rest : List UInt8) :
    ∃ first more, String.utf8EncodeChar c = first :: more ∧
      next first (more ++ rest) = (some c, more.length) := by
  have valid : c.val.toNat < 0xD800 ∨ 0xDFFF < c.val.toNat ∧ c.val.toNat < 0x110000 := c.valid
  have back : Char.ofNat c.val.toNat = c := Char.ofNat_toNat c
  unfold String.utf8EncodeChar
  generalize c.val.toNat = v at valid back
  subst back
  dsimp only
  split
  · refine ⟨_, _, rfl, ?_⟩
    have byte : (UInt8.ofNat v).toNat = v := by
      rw [UInt8.toNat_ofNat']
      omega
    rw [next, byte, if_pos (by omega)]
    rfl
  split
  · refine ⟨_, _, rfl, ?_⟩
    refine next_sequence (by omega) (by omega) (continuation?_two _ (by omega) (by omega)) ?_
    rw [List.cons_append, tail?_fits (by omega) (by omega) (by omega), tail?]
    refine congrArg (fun code => (some code, _)) ?_
    rw [if_pos rfl]
    omega
  split
  · refine ⟨_, _, rfl, ?_⟩
    refine next_sequence (by omega) (by omega) (continuation?_three _ (by omega)) ?_
    rw [List.cons_append, tail?_fits (by omega) ?_ ?_, List.cons_append,
      tail?_fits (by omega) (by omega) (by omega), tail?]
    · refine congrArg (fun code => (some code, _)) ?_
      rw [if_neg (by decide), if_pos rfl]
      omega
    · split <;> omega
    · split <;> omega
  · refine ⟨_, _, rfl, ?_⟩
    refine next_sequence (by omega) (by omega) (continuation?_four _ (by omega)) ?_
    rw [List.cons_append, tail?_fits (by omega) ?_ ?_, List.cons_append,
      tail?_fits (by omega) (by omega) (by omega), List.cons_append,
      tail?_fits (by omega) (by omega) (by omega), tail?]
    · refine congrArg (fun code => (some code, _)) ?_
      rw [if_neg (by decide), if_neg (by decide)]
      omega
    · split <;> omega
    · split <;> omega

/-- A text is read back from its bytes. -/
theorem decodeLossy_encode (text : String) : decodeLossy (encode text) = text.toList := by
  rw [encode_eq]
  induction text.toList with
  | nil => rw [List.flatMap_nil, decodeLossy]
  | cons c chars ih =>
      obtain ⟨first, more, bytes, read⟩ :=
        next_utf8EncodeChar c (chars.flatMap String.utf8EncodeChar)
      rw [List.flatMap_cons, bytes, List.cons_append, decodeLossy, read, List.drop_left, ih,
        Option.getD_some]

end Text.Utf8

/-- A message that was made of a text is read as this text. -/
theorem Network.textOf_encode (text : String) : textOf (Text.Utf8.encode text) = text := by
  rw [textOf, Text.Utf8.decodeLossy_encode, String.ofList_toList]

end PeerScript
