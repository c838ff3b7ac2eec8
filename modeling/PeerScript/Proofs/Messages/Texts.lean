import PeerScript.Proofs.Lexing

/-!
# A text behind another one

No lexeme goes over the end of a line, except a string, which must be closed.  So the tokens of two
texts with a line feed between them are those of the first one, the end of the line, and those of
the second one.
-/

set_option autoImplicit false

namespace PeerScript.Script

open Text (Position isDecimalDigit isBlank startsName continuesName)

/-- Nothing, or a text that begins with the end of a line. -/
def EndsLine (tail : List Char) : Prop := ∀ c ∈ tail.head?, c = '\n'

theorem endsLine_nil : EndsLine [] := fun _ mem => nomatch mem

theorem endsLine_cons (more : List Char) : EndsLine ('\n' :: more) := by
  rintro c ⟨⟩
  rfl

namespace EndsLine

variable {tail : List Char} (ends : EndsLine tail)

include ends

theorem cases : tail = [] ∨ ∃ more, tail = '\n' :: more := by
  cases tail with
  | nil => exact .inl rfl
  | cons c more => exact .inr ⟨more, by rw [ends c rfl]⟩

theorem takeWhile {p : Char → Bool} (stops : p '\n' = false) (cs : List Char) :
    (cs ++ tail).takeWhile p = cs.takeWhile p := by
  induction cs with
  | nil => rcases ends.cases with rfl | ⟨more, rfl⟩ <;> simp [stops]
  | cons c cs ih => simp only [List.cons_append, List.takeWhile_cons, ih]

theorem dropWhile {p : Char → Bool} (stops : p '\n' = false) (cs : List Char) :
    (cs ++ tail).dropWhile p = cs.dropWhile p ++ tail := by
  induction cs with
  | nil => rcases ends.cases with rfl | ⟨more, rfl⟩ <;> simp [stops]
  | cons c cs ih =>
      simp only [List.cons_append, List.dropWhile_cons, ih]
      split <;> rfl

/-! ## Numerals -/

theorem fractionPart (cs : List Char) :
    fractionPart (cs ++ tail) = ((fractionPart cs).1, (fractionPart cs).2 ++ tail) := by
  have digit : isDecimalDigit '\n' = false := by decide
  rcases ends.cases with rfl | ⟨more, rfl⟩
  · simp
  have ends := endsLine_cons more
  rcases cs with _ | ⟨c, _ | ⟨d, rest⟩⟩
  · rfl
  · by_cases point : c = '.'
    · subst point
      simp [Script.fractionPart, digit]
    · simp [Script.fractionPart, point]
  · by_cases point : c = '.'
    · subst point
      have taken := ends.takeWhile digit (d :: rest)
      have dropped := ends.dropWhile digit (d :: rest)
      simp only [List.cons_append] at taken dropped
      simp only [Script.fractionPart, List.cons_append, taken, dropped]
      split <;> rfl
    · simp [Script.fractionPart, point]

theorem exponentPart (cs : List Char) :
    exponentPart (cs ++ tail) = ((exponentPart cs).1, (exponentPart cs).2 ++ tail) := by
  have digit : isDecimalDigit '\n' = false := by decide
  rcases ends.cases with rfl | ⟨more, rfl⟩
  · simp
  have ends := endsLine_cons more
  rcases cs with _ | ⟨mark, _ | ⟨sign, _ | ⟨d, rest⟩⟩⟩
  · rcases more with _ | ⟨c, _ | ⟨d, more⟩⟩ <;> simp [Script.exponentPart]
  · rcases more with _ | ⟨c, more⟩ <;> simp [Script.exponentPart, digit]
  · by_cases number : isDecimalDigit sign
    · by_cases letter : mark = 'e' ∨ mark = 'E'
      · simp [Script.exponentPart, letter, number, digit]
      · simp [Script.exponentPart, letter]
    · simp [Script.exponentPart, number, digit]
  · have taken := ends.takeWhile digit (d :: rest)
    have dropped := ends.dropWhile digit (d :: rest)
    have taken' := ends.takeWhile digit (sign :: d :: rest)
    have dropped' := ends.dropWhile digit (sign :: d :: rest)
    simp only [List.cons_append] at taken dropped taken' dropped'
    simp only [Script.exponentPart, List.cons_append, taken, dropped, taken', dropped']
    repeat' split
    all_goals rfl

theorem read (cs : List Char) :
    Numeral.read (cs ++ tail) = ((Numeral.read cs).1, (Numeral.read cs).2 ++ tail) := by
  have digit : isDecimalDigit '\n' = false := by decide
  simp only [Numeral.read, ends.takeWhile digit, ends.dropWhile digit, ends.fractionPart,
    ends.exponentPart]

theorem scanNumber {r s : Remainder} {token : Token} (scanned : scanNumber r = .ok (token, s))
    (place : Position) :
    ∃ after, scanNumber ⟨r.chars ++ tail, place⟩ = .ok (token, ⟨s.chars ++ tail, after⟩) := by
  have stops : continuesName '\n' = false := by decide +kernel
  unfold Script.scanNumber at scanned ⊢
  simp only [ends.read] at scanned ⊢
  split at scanned
  · cases scanned
  · rename_i alone
    have behind : ((Numeral.read r.chars).2 ++ tail).head?.any continuesName = false := by
      cases left : (Numeral.read r.chars).2 with
      | nil => rcases ends.cases with rfl | ⟨more, rfl⟩ <;> simp [stops]
      | cons c more =>
          rw [left] at alone
          simpa using alone
    rw [behind]
    split at scanned
    · rename_i token' read
      cases scanned
      exact ⟨_, by simp [Remainder.skip]; rfl⟩
    · cases scanned

/-! ## Strings and symbols -/

omit ends in
/-- A string that is closed does not depend on what follows. -/
theorem stringBody {opening : Position} {cs : List Char} {place : Position} {text : List Char}
    {r : Remainder} (read : stringBody opening cs place = .ok (text, r)) (tail : List Char)
    (opening' place' : Position) :
    ∃ after, stringBody opening' (cs ++ tail) place' = .ok (text, ⟨r.chars ++ tail, after⟩) := by
  fun_induction Script.stringBody opening cs place generalizing text r place'
  case case1 | case3 | case4 | case6 | case8 => cases read
  case case2 rest p =>
    cases read
    exact ⟨_, by rw [List.cons_append, Script.stringBody]⟩
  case case5 letter rest p p' c known text' r' read' ih =>
    cases read
    obtain ⟨after, more⟩ := ih read' ((place'.after '\\').after letter)
    refine ⟨after, ?_⟩
    rw [List.cons_append, List.cons_append, Script.stringBody]
    simp only [known, more]
  case case7 c rest p noQuote noEnd noEscape text' r' read' ih =>
    cases read
    obtain ⟨after, more⟩ := ih read' (place'.after c)
    have plain : c ≠ '\\' := fun same => by
      cases rest with
      | nil => exact noEnd same rfl
      | cons letter rest => exact noEscape letter rest same rfl
    refine ⟨after, ?_⟩
    rw [List.cons_append, Script.stringBody]
    · simp only [more]
    · exact noQuote
    · exact fun same _ => plain same
    · exact fun _ _ same _ => plain same

omit ends in
theorem symbol?_le_length {cs : List Char} {s : Symbol} {n : Nat}
    (h : Script.symbol? cs = some (s, n)) : n ≤ cs.length := by
  unfold Script.symbol? at h
  repeat' split at h
  all_goals first | (cases h; simp) | cases h

theorem symbol? (c : Char) (rest : List Char) :
    symbol? (c :: rest ++ tail) = symbol? (c :: rest) := by
  rcases ends.cases with rfl | ⟨more, rfl⟩
  · simp
  rcases rest with _ | ⟨d, rest⟩
  · simp only [List.cons_append, List.nil_append]
    unfold Script.symbol?
    split <;> simp_all
  · simp only [List.cons_append]
    unfold Script.symbol?
    split
    case h_7 shape =>
      cases shape
      split <;> simp_all
    all_goals simp_all

/-! ## Lexemes -/

/-- A lexeme in front of a line end is what it is at the end of the text, wherever it stands. -/
theorem scan {c : Char} {rest : List Char} {place : Position} {token : Option Token} {r : Remainder}
    (scanned : scan c rest place = .ok (token, r)) (place' : Position) :
    ∃ after, scan c (rest ++ tail) place' = .ok (token, ⟨r.chars ++ tail, after⟩) := by
  have first : (rest ++ tail).head? = some '/' ↔ rest.head? = some '/' := by
    rcases ends.cases with rfl | ⟨more, rfl⟩
    · simp
    · cases rest <;> simp
  unfold Script.scan at scanned ⊢
  dsimp only at scanned ⊢
  simp only [first]
  split at scanned
  · cases scanned
    rw [if_pos ‹_›]
    exact ⟨_, rfl⟩
  rw [if_neg ‹_›]
  split at scanned
  · cases scanned
    rw [if_pos ‹_›]
    exact ⟨_, rfl⟩
  rw [if_neg ‹_›]
  split at scanned
  · cases scanned
    rw [if_pos ‹_›]
    have dropped := ends.dropWhile (p := (· ≠ '\n')) (by decide) (c :: rest)
    exact ⟨_, by rw [← List.cons_append, dropped]; rfl⟩
  rw [if_neg ‹_›]
  split at scanned
  · rw [if_pos ‹_›]
    cases number : Script.scanNumber ⟨c :: rest, place⟩ with
    | error fault =>
        rw [number] at scanned
        exact nomatch scanned
    | ok read =>
        rw [number] at scanned
        cases scanned
        obtain ⟨after, same⟩ := ends.scanNumber number place'
        rw [List.cons_append] at same
        exact ⟨after, by rw [same]⟩
  rw [if_neg ‹_›]
  split at scanned
  · rw [if_pos ‹_›]
    cases body : Script.stringBody place rest (place.after c) with
    | error fault =>
        rw [body] at scanned
        exact nomatch scanned
    | ok read =>
        rw [body] at scanned
        cases scanned
        obtain ⟨after, same⟩ := stringBody body tail place' (place'.after c)
        exact ⟨after, by rw [same]⟩
  rw [if_neg ‹_›]
  split at scanned
  · cases scanned
    rw [if_pos ‹_›]
    have stops : continuesName '\n' = false := by decide +kernel
    have taken := ends.takeWhile stops (c :: rest)
    have dropped := ends.dropWhile stops (c :: rest)
    exact ⟨_, by rw [← List.cons_append, taken, dropped]; rfl⟩
  rw [if_neg ‹_›]
  have mark := ends.symbol? c rest
  cases spelt : Script.symbol? (c :: rest) with
  | none =>
      rw [spelt] at scanned
      exact nomatch scanned
  | some found =>
      obtain ⟨symbol, count⟩ := found
      rw [spelt] at scanned mark
      cases scanned
      have inside := symbol?_le_length spelt
      have dropped : (c :: rest ++ tail).drop count = (c :: rest).drop count ++ tail :=
        List.drop_append_of_le_length inside
      rw [List.cons_append] at mark dropped
      simp only [mark, Remainder.skip, dropped]
      exact ⟨_, rfl⟩

end EndsLine

/-- No lexeme is the end of a script. -/
theorem scan_ne_finish {c : Char} {rest : List Char} {place : Position} {token : Token}
    {r : Remainder} (scanned : scan c rest place = .ok (some token, r)) : token ≠ .finish := by
  rintro rfl
  unfold scan at scanned
  dsimp only at scanned
  repeat' split at scanned
  all_goals try cases scanned
  rename_i number
  unfold scanNumber at number
  dsimp only at number
  split at number
  · cases number
  · split at number <;> cases number
    rename_i read
    unfold Numeral.toToken at read
    split at read
    · cases read
    · dsimp only at read
      split at read <;> cases read

/-- The tokens of a text, wherever it stands, with the tokens of what follows it instead of the
end. -/
theorem tokens_append {cs tail : List Char} {after : List Token} (ends : EndsLine tail)
    (more : Lexes tail after) {place : Position} {placed : List Placed}
    (read : tokens cs place = .ok placed) :
    ∃ before, placed.map Placed.token = before ++ [.finish] ∧ .finish ∉ before ∧
      Lexes (cs ++ tail) (before ++ after) := by
  fun_induction tokens cs place generalizing placed with
  | case1 place =>
      cases read
      exact ⟨[], rfl, List.not_mem_nil, more⟩
  | case2 => exact nomatch read
  | case3 => exact nomatch read
  | case4 place c rest token r scanned _ later found ih =>
      cases read
      obtain ⟨before, shown, unfinished, lexes⟩ := ih found
      have step := ends.scan scanned
      refine ⟨token.toList ++ before, ?_, ?_, ?_⟩
      · cases token <;> simp [shown]
      · rw [List.mem_append, not_or]
        refine ⟨fun mem => ?_, unfinished⟩
        cases token with
        | none => exact nomatch mem
        | some token => exact scan_ne_finish scanned (List.mem_singleton.mp mem).symm
      · rw [List.append_assoc]
        exact Lexes.of_scan step lexes

/-- The tokens of two texts with a line feed between them. -/
theorem tokenize_lines {first second : String} {one two : List Placed}
    (read : tokenize first = .ok one) (read' : tokenize second = .ok two) :
    ∃ before both, one.map Placed.token = before ++ [.finish] ∧ .finish ∉ before ∧
      tokenize (first ++ "\n" ++ second) = .ok both ∧
      both.map Placed.token = before ++ .newline :: two.map Placed.token := by
  have last : Lexes second.toList (two.map Placed.token) := by
    obtain ⟨before, shown, -, lexes⟩ := tokens_append endsLine_nil Lexes.nil read'
    rwa [List.append_nil, ← shown] at lexes
  have behind : Lexes ('\n' :: second.toList) (.newline :: two.map Placed.token) :=
    Lexes.newline last
  obtain ⟨before, shown, unfinished, lexes⟩ := tokens_append (endsLine_cons _) behind read
  obtain ⟨both, read, shown'⟩ := lexes .start
  refine ⟨before, both, shown, unfinished, ?_, shown'⟩
  rw [tokenize, String.toList_append, String.toList_append, List.append_assoc]
  exact read

end PeerScript.Script
