import PeerScript.Script.Scan

/-!
# What a text is cut into

`Lexes cs ts` says that the characters `cs` are cut into the tokens `ts`, wherever they stand.  Each
kind of token has one law: the token is written in front of a text that does not go on with it, and
what follows is cut as it would be alone.  The laws are stated for an arbitrary rest, so they
compose along any text that is written token by token.
-/

set_option autoImplicit false

namespace PeerScript

namespace Text

/-! ## Letters, digits and blanks -/

/-- The code points of blank characters beyond ASCII. -/
def wideBlanks : List Nat :=
  [0x85, 0xA0, 0x1680, 0x2000, 0x2001, 0x2002, 0x2003, 0x2004, 0x2005, 0x2006, 0x2007, 0x2008,
    0x2009, 0x200A, 0x2028, 0x2029, 0x202F, 0x205F, 0x3000]

theorem wideBlanks_no_letters : ∀ code ∈ wideBlanks, inRanges alphabeticRanges code = false := by
  decide +kernel

theorem mem_wideBlanks {c : Char} (blank : isBlank c = true) (wide : 0x80 ≤ c.toNat) :
    c.toNat ∈ wideBlanks := by
  simp only [isBlank, Bool.or_eq_true, Bool.and_eq_true, decide_eq_true_eq, beq_iff_eq] at blank
  simp only [wideBlanks, List.mem_cons, List.not_mem_nil, or_false]
  omega

theorem isAlpha_iff (c : Char) :
    c.isAlpha = true ↔ (65 ≤ c.toNat ∧ c.toNat ≤ 90) ∨ (97 ≤ c.toNat ∧ c.toNat ≤ 122) := by
  have upper : c.isUpper = true ↔ c.val ≥ 'A'.val ∧ c.val ≤ 'Z'.val := decide_eq_true_iff
  have lower : c.isLower = true ↔ c.val ≥ 'a'.val ∧ c.val ≤ 'z'.val :=
    Bool.and_eq_true_iff.trans (and_congr decide_eq_true_iff decide_eq_true_iff)
  have either : c.isAlpha = true ↔ c.isUpper = true ∨ c.isLower = true := Bool.or_eq_true_iff
  rw [either, upper, lower]
  rfl

theorem isDecimalDigit_iff (c : Char) :
    isDecimalDigit c = true ↔ 48 ≤ c.toNat ∧ c.toNat ≤ 57 := by
  simp only [isDecimalDigit, Bool.and_eq_true, decide_eq_true_eq, Char.le_def,
    UInt32.le_iff_toNat_le]
  rfl

/-- No letter is blank. -/
theorem isBlank_of_isAlphabetic {c : Char} (letter : isAlphabetic c = true) :
    isBlank c = false := by
  refine Bool.eq_false_iff.mpr fun blank => ?_
  unfold isAlphabetic at letter
  split at letter
  · have range := (isAlpha_iff c).mp letter
    simp only [isBlank, Bool.or_eq_true, Bool.and_eq_true, decide_eq_true_eq, beq_iff_eq] at blank
    omega
  · rename_i wide
    have none := wideBlanks_no_letters _ (mem_wideBlanks blank (by omega))
    rw [none] at letter
    exact Bool.noConfusion letter

/-- The code points that begin a name: an ASCII letter, an underscore, or a letter beyond ASCII. -/
theorem range_of_startsName {c : Char} (start : startsName c = true) :
    (65 ≤ c.toNat ∧ c.toNat ≤ 90) ∨ (97 ≤ c.toNat ∧ c.toNat ≤ 122) ∨ c.toNat = 95 ∨
      0x80 ≤ c.toNat := by
  simp only [startsName, Bool.or_eq_true, beq_iff_eq] at start
  rcases start with letter | rfl
  · unfold isAlphabetic at letter
    split at letter
    · have range := (isAlpha_iff c).mp letter
      omega
    · omega
  · decide

theorem isBlank_of_startsName {c : Char} (start : startsName c = true) : isBlank c = false := by
  simp only [startsName, Bool.or_eq_true, beq_iff_eq] at start
  rcases start with letter | rfl
  · exact isBlank_of_isAlphabetic letter
  · decide

theorem continuesName_of_isDecimalDigit {c : Char} (digit : isDecimalDigit c = true) :
    continuesName c = true := by
  have range := (isDecimalDigit_iff c).mp digit
  have narrow : c.toNat < 0x80 := by omega
  have isDigit : c.isDigit = true := by
    simp only [Char.isDigit, Bool.and_eq_true, decide_eq_true_eq, ge_iff_le,
      UInt32.le_iff_toNat_le]
    exact range
  simp [continuesName, isAlphanumeric, isNumeric, narrow, isDigit]

end Text

namespace Script

open Text (isDecimalDigit isBlank startsName continuesName)

/-! ## Names -/

/-- A word that the scanner reads as one name. -/
structure IsName (name : String) : Prop where
  starts : name.toList.head?.any startsName = true
  continues : ∀ c ∈ name.toList, continuesName c = true

namespace IsName

instance (name : String) : Decidable (IsName name) :=
  decidable_of_iff
    (name.toList.head?.any startsName = true ∧ name.toList.all continuesName = true)
    ⟨fun h => ⟨h.1, List.all_eq_true.mp h.2⟩, fun h => ⟨h.1, List.all_eq_true.mpr h.2⟩⟩

theorem toList_eq_cons {name : String} (h : IsName name) :
    ∃ first more, name.toList = first :: more ∧ startsName first = true := by
  have starts := h.starts
  cases shape : name.toList with
  | nil => simp [shape] at starts
  | cons first more => exact ⟨first, more, rfl, by simpa [shape] using starts⟩

end IsName

/-! ## Cutting a text -/

/-- The characters are cut into the given tokens, wherever they begin. -/
def Lexes (cs : List Char) (ts : List Token) : Prop :=
  ∀ place, ∃ placed, tokens cs place = .ok placed ∧ placed.map Placed.token = ts

/-- What follows does not go on with a word. -/
def EndsWord (rest : List Char) : Prop := ∀ c ∈ rest.head?, continuesName c = false

/-- What follows does not go on with a symbol, nor makes a comment of one. -/
def EndsSymbol (rest : List Char) : Prop := ∀ c ∈ rest.head?, c ≠ '=' ∧ c ≠ '|' ∧ c ≠ '/'

/-- Whether a longer symbol or a comment begins like the symbol. -/
def Symbol.isOpen : Symbol → Bool
  | .assign | .bang | .lt | .gt | .pipe | .slash => true
  | _ => false

namespace Lexes

theorem nil : Lexes [] [.finish] := fun place => ⟨_, by rw [tokens], rfl⟩

/-- One step of the scanner in front of a text that is cut already. -/
theorem of_scan {c : Char} {rest left : List Char} {token : Option Token} {ts : List Token}
    (step : ∀ place, ∃ after, scan c rest place = .ok (token, ⟨left, after⟩))
    (more : Lexes left ts) : Lexes (c :: rest) (token.toList ++ ts) := by
  intro place
  obtain ⟨after, scanned⟩ := step place
  obtain ⟨placed, read, shown⟩ := more after
  refine ⟨token.elim placed (⟨·, place⟩ :: placed), ?_, ?_⟩
  · rw [tokens]
    split
    · rename_i fault stopped
      rw [scanned] at stopped
      cases stopped
    · rename_i found r stopped
      rw [scanned] at stopped
      cases stopped
      simp only [read]
  · cases token <;> simp [shown]

/-- A space is passed over. -/
theorem space {rest : List Char} {ts : List Token} (more : Lexes rest ts) :
    Lexes (' ' :: rest) ts := by
  have step : ∀ place, ∃ after, scan ' ' rest place = .ok (none, ⟨rest, after⟩) := by
    intro place
    exact ⟨place.after ' ', by simp [scan, show isBlank ' ' = true by decide]⟩
  exact of_scan step more

/-- The end of a line is a token. -/
theorem newline {rest : List Char} {ts : List Token} (more : Lexes rest ts) :
    Lexes ('\n' :: rest) (.newline :: ts) := by
  have step : ∀ place, ∃ after, scan '\n' rest place = .ok (some .newline, ⟨rest, after⟩) :=
    fun place => ⟨place.after '\n', by simp [scan]⟩
  exact of_scan step more

/-! ## Words -/

/-- A name in front of what is no part of a word. -/
theorem name {name : String} {rest : List Char} {ts : List Token} (h : IsName name)
    (ends : EndsWord rest) (more : Lexes rest ts) :
    Lexes (name.toList ++ rest) (.name name :: ts) := by
  obtain ⟨first, tail, shape, starts⟩ := h.toList_eq_cons
  have word : (first :: (tail ++ rest)).takeWhile continuesName = name.toList ∧
      (first :: (tail ++ rest)).dropWhile continuesName = rest := by
    rw [← List.cons_append, ← shape, List.takeWhile_append_of_pos h.continues,
      List.dropWhile_append_of_pos h.continues]
    cases rest with
    | nil => simp
    | cons c cs => simp [ends c rfl]
  have range := Text.range_of_startsName starts
  have plain : first ≠ '\n' ∧ first ≠ '/' ∧ first ≠ '"' := by
    refine ⟨?_, ?_, ?_⟩ <;> (rintro rfl; revert range; decide)
  have noDigit : isDecimalDigit first = false := by
    refine Bool.eq_false_iff.mpr fun digit => ?_
    have := (Text.isDecimalDigit_iff first).mp digit
    omega
  have step : ∀ place, ∃ after,
      scan first (tail ++ rest) place = .ok (some (.name name), ⟨rest, after⟩) := by
    intro place
    simp only [scan, Remainder.skip, word, plain, noDigit, Text.isBlank_of_startsName starts,
      starts, false_and, if_false, if_true, Bool.false_eq_true, String.ofList_toList,
      Except.ok.injEq,
      Prod.mk.injEq, Remainder.mk.injEq, true_and, exists_eq']
  rw [shape, List.cons_append]
  exact of_scan step more

/-! ## Numerals -/

theorem fractionPart_of_ends {rest : List Char} (h : rest.head? ≠ some '.') :
    fractionPart rest = ([], rest) := by
  cases rest with
  | nil => rfl
  | cons c cs =>
      have : c ≠ '.' := by simpa using h
      unfold fractionPart
      split
      · rename_i shape
        cases shape
        exact absurd rfl this
      · rfl

theorem exponentPart_of_ends {rest : List Char} (ends : EndsWord rest) :
    exponentPart rest = ([], rest) := by
  cases rest with
  | nil => rfl
  | cons c cs =>
      have word := ends c rfl
      have noMark : ¬ (c = 'e' ∨ c = 'E') := by
        rintro (rfl | rfl) <;> (revert word; decide)
      rcases cs with _ | ⟨d, _ | ⟨e, more⟩⟩
      · rfl
      · simp [exponentPart, noMark]
      · simp [exponentPart, noMark]

theorem isDecimalDigit_of_mem_toDigits {n : Nat} {c : Char} (h : c ∈ Nat.toDigits 10 n) :
    isDecimalDigit c = true := by
  have digit := Nat.isDigit_of_mem_toDigits (by decide) (by decide) h
  simp only [Char.isDigit, Bool.and_eq_true, decide_eq_true_eq, ge_iff_le,
    UInt32.le_iff_toNat_le] at digit
  exact (Text.isDecimalDigit_iff c).mpr digit

theorem ofDigits_toDigits (n : Nat) : Number.ofDigits (Nat.toDigits 10 n) = n :=
  Nat.ofDigitChars_ten_toDigits

/-- Decimal digits in front of what is no part of a numeral. -/
theorem digits {n : Nat} {rest : List Char} {ts : List Token} (small : n < 9223372036854775808)
    (ends : EndsWord rest) (noPoint : rest.head? ≠ some '.') (more : Lexes rest ts) :
    Lexes (Nat.toDigits 10 n ++ rest) (.int (Int64.ofNat n) :: ts) := by
  have all : ∀ c ∈ Nat.toDigits 10 n, isDecimalDigit c = true :=
    fun c h => isDecimalDigit_of_mem_toDigits h
  have stops : rest.takeWhile isDecimalDigit = [] ∧ rest.dropWhile isDecimalDigit = rest := by
    cases rest with
    | nil => exact ⟨rfl, rfl⟩
    | cons c cs =>
        have noDigit : isDecimalDigit c = false := by
          refine Bool.eq_false_iff.mpr fun digit => ?_
          have goesOn := Text.continuesName_of_isDecimalDigit digit
          rw [ends c rfl] at goesOn
          exact Bool.noConfusion goesOn
        simp [noDigit]
  have numeral :
      Numeral.read (Nat.toDigits 10 n ++ rest) = (⟨Nat.toDigits 10 n, [], []⟩, rest) := by
    simp only [Numeral.read, List.takeWhile_append_of_pos all, List.dropWhile_append_of_pos all,
      stops, List.append_nil, fractionPart_of_ends noPoint, exponentPart_of_ends ends]
  have unextended : rest.head?.any continuesName = false := by
    cases rest with
    | nil => rfl
    | cons c cs => simp [ends c rfl]
  obtain ⟨first, tail, shape⟩ := List.exists_cons_of_ne_nil (Nat.toDigits_ne_nil (n := n) (b := 10))
  have digit : isDecimalDigit first = true := all first (by simp [shape])
  have range := (Text.isDecimalDigit_iff first).mp digit
  have plain : first ≠ '\n' ∧ first ≠ '/' := by
    refine ⟨?_, ?_⟩ <;> (rintro rfl; revert range; decide)
  have noBlank : isBlank first = false := by
    simp only [isBlank, Bool.or_eq_false_iff, Bool.and_eq_false_iff, decide_eq_false_iff_not,
      beq_eq_false_iff_ne]
    omega
  have step : ∀ place, ∃ after,
      scan first (tail ++ rest) place = .ok (some (.int (Int64.ofNat n)), ⟨rest, after⟩) := by
    intro place
    have number : ∃ after, scanNumber ⟨first :: (tail ++ rest), place⟩ =
        .ok (.int (Int64.ofNat n), ⟨rest, after⟩) := by
      rw [← List.cons_append, ← shape]
      simp [scanNumber, numeral, unextended, Numeral.toToken, Numeral.isFloat, ofDigits_toDigits,
        small, Remainder.skip]
    obtain ⟨after, number⟩ := number
    refine ⟨after, ?_⟩
    simp only [scan, plain, noBlank, digit, number, false_and, if_false, if_true,
      Bool.false_eq_true]
  rw [shape, List.cons_append]
  exact of_scan step more

/-! ## Strings -/

/-- What stands between the quotation marks reads back as the text. -/
theorem stringBody_encode (opening : Text.Position) (text rest : List Char) :
    ∀ place, ∃ after, stringBody opening (Text.Quoted.encode text ++ '"' :: rest) place =
      .ok (text, ⟨rest, after⟩) := by
  induction text with
  | nil => exact fun place => ⟨_, rfl⟩
  | cons c text ih =>
      intro place
      cases escaped : Text.Quoted.escape? c with
      | none =>
          obtain ⟨noQuote, noSlash⟩ := Text.Quoted.ne_of_escape?_eq_none escaped
          obtain ⟨after, read⟩ := ih (place.after c)
          refine ⟨after, ?_⟩
          simp only [Text.Quoted.encode, List.flatMap_cons, Text.Quoted.encodeChar, escaped,
            List.cons_append, List.nil_append]
          rw [stringBody.eq_5 _ _ _ _ (by simpa using noQuote) (by simp [noSlash])
            (by intro letter more h; exact absurd h noSlash)]
          rw [Text.Quoted.encode] at read
          rw [read]
      | some letter =>
          obtain ⟨after, read⟩ := ih ((place.after '\\').after letter)
          refine ⟨after, ?_⟩
          simp only [Text.Quoted.encode, List.flatMap_cons, Text.Quoted.encodeChar, escaped,
            List.cons_append, List.nil_append]
          rw [Text.Quoted.encode] at read
          simp only [stringBody, Text.Quoted.unescape?_of_escape? escaped, read]

/-- A quoted text. -/
theorem quote (text : List Char) {rest : List Char} {ts : List Token} (more : Lexes rest ts) :
    Lexes (Text.Quoted.quote text ++ rest) (.str (String.ofList text) :: ts) := by
  have step : ∀ place, ∃ after, scan '"' (Text.Quoted.encode text ++ '"' :: rest) place =
      .ok (some (.str (String.ofList text)), ⟨rest, after⟩) := by
    intro place
    obtain ⟨after, read⟩ := stringBody_encode place text rest (place.after '"')
    refine ⟨after, ?_⟩
    simp [scan, show isBlank '"' = false by decide, show isDecimalDigit '"' = false by decide, read]
  have shape : Text.Quoted.quote text ++ rest =
      '"' :: (Text.Quoted.encode text ++ '"' :: rest) := by
    simp [Text.Quoted.quote]
  rw [shape]
  exact of_scan step more

/-! ## Symbols -/

theorem symbol?_spelling (mark : Symbol) {rest : List Char}
    (ends : mark.isOpen = true → EndsSymbol rest) :
    symbol? (mark.spelling ++ rest) = some (mark, mark.spelling.length) := by
  rcases rest with _ | ⟨c, cs⟩
  · cases mark <;> rfl
  · cases mark
    case assign | bang | lt | gt | pipe | slash =>
      obtain ⟨noAssign, noBar, -⟩ := ends rfl c rfl
      simp [Symbol.spelling, symbol?, noAssign, noBar]
    all_goals simp [Symbol.spelling, symbol?]

/-- A symbol in front of what does not go on with it. -/
theorem symbol (mark : Symbol) {rest : List Char} {ts : List Token}
    (ends : mark.isOpen = true → EndsSymbol rest) (more : Lexes rest ts) :
    Lexes (mark.spelling ++ rest) (.symbol mark :: ts) := by
  have found := symbol?_spelling mark ends
  have drop : (mark.spelling ++ rest).drop mark.spelling.length = rest := List.drop_left
  obtain ⟨first, tail, shape⟩ := List.exists_cons_of_ne_nil
    (show mark.spelling ≠ [] by cases mark <;> decide)
  have plain : first ≠ '\n' ∧ isBlank first = false ∧ isDecimalDigit first = false ∧ first ≠ '"' ∧
      startsName first = false ∧ (first = '/' → tail = [] ∧ mark.isOpen = true) := by
    cases mark <;> (cases shape; decide)
  obtain ⟨noBreak, noBlank, noDigit, noQuote, noName, slash⟩ := plain
  have noSlashes : ¬ (first = '/' ∧ (tail ++ rest).head? = some '/') := by
    rintro ⟨isSlash, second⟩
    rw [(slash isSlash).1, List.nil_append] at second
    exact (ends (slash isSlash).2 '/' second).2.2 rfl
  rw [shape, List.cons_append] at found drop ⊢
  have step : ∀ place, ∃ after,
      scan first (tail ++ rest) place = .ok (some (.symbol mark), ⟨rest, after⟩) := by
    intro place
    simp only [scan, noBreak, noBlank, noSlashes, noDigit, noQuote, noName, found, Remainder.skip,
      if_false, Bool.false_eq_true, Except.ok.injEq, Prod.mk.injEq, Remainder.mk.injEq, true_and]
    exact ⟨_, drop, rfl⟩
  exact of_scan step more

/-- A symbol that nothing goes on with. -/
theorem solid (mark : Symbol) (closed : mark.isOpen = false) {rest : List Char} {ts : List Token}
    (more : Lexes rest ts) : Lexes (mark.spelling ++ rest) (.symbol mark :: ts) :=
  symbol mark (fun isOpen => nomatch closed.symm.trans isOpen) more

end Lexes

end Script

end PeerScript
