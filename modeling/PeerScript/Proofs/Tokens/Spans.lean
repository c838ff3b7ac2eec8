import Mathlib
import PeerScript.Proofs.Messages.Texts

/-!
# The ranges of tokens

The scanner reads every character of a text once, in order.  What a token is made of is a range of
the text, and what is in no range was passed over: blanks, and comments up to the end of their line.

`Lexeme` says how a token may be written, without saying how far the scanner reads.  `Cut` says of a
text that it consists of lexemes and of what is passed over, from some place on, and
`tokenize_covers` reads off it where the ranges of the tokens lie.
-/

set_option autoImplicit false

namespace PeerScript.Script

open Text (Position isDecimalDigit isBlank startsName continuesName)

/-! ## How tokens are written -/

/-- Decimal digits, at least one. -/
def AreDigits (cs : List Char) : Prop := cs ≠ [] ∧ ∀ c ∈ cs, isDecimalDigit c = true

/-- A numeral has digits, and it may have a fraction and an exponent, each of which has digits as
well. -/
structure Numeral.IsWritten (n : Numeral) : Prop where
  whole : AreDigits n.whole
  fraction : n.fraction = [] ∨ ∃ digits, n.fraction = '.' :: digits ∧ AreDigits digits
  exponent : n.exponent = [] ∨ ∃ mark sign digits, n.exponent = mark :: (sign ++ digits) ∧
    mark ∈ ['e', 'E'] ∧ sign ∈ [[], ['+'], ['-']] ∧ AreDigits digits

/-- The characters between two quotation marks stand for the text. -/
inductive Quotes : List Char → List Char → Prop
  | nil : Quotes [] []
  | plain {c : Char} {written text : List Char} : c ≠ '"' → c ≠ '\\' → Quotes written text →
      Quotes (c :: written) (c :: text)
  | escaped {letter c : Char} {written text : List Char} : Text.Quoted.unescape? letter = some c →
      Quotes written text → Quotes ('\\' :: letter :: written) (c :: text)

/-- The characters are a way of writing the token. -/
inductive Lexeme : Token → List Char → Prop
  | number {n : Numeral} {t : Token} : n.IsWritten → n.toToken = .ok t → Lexeme t n.chars
  | str {written text : List Char} : Quotes written text →
      Lexeme (.str (String.ofList text)) ('"' :: (written ++ ['"']))
  | name {text : String} : IsName text → Lexeme (.name text) text.toList
  | symbol (mark : Symbol) : Lexeme (.symbol mark) mark.spelling
  | newline : Lexeme .newline ['\n']

/-- What is passed over in front of `rest`: a blank that ends no line, or a comment, which goes up
to the end of its line. -/
inductive Passed : List Char → List Char → Prop
  | blank {c : Char} {rest : List Char} : isBlank c = true → c ≠ '\n' → Passed [c] rest
  | comment {used rest : List Char} : ['/', '/'] <+: used → '\n' ∉ used → EndsLine rest →
    Passed used rest

/-! ## What the scanner reads -/

theorem areDigits_takeWhile {d : Char} (digit : isDecimalDigit d = true) (rest : List Char) :
    AreDigits ((d :: rest).takeWhile isDecimalDigit) := by
  refine ⟨?_, fun c mem => List.mem_takeWhile_imp mem⟩
  rw [List.takeWhile_cons_of_pos digit]
  exact List.cons_ne_nil _ _

theorem fractionPart_spec (cs : List Char) :
    cs = (fractionPart cs).1 ++ (fractionPart cs).2 ∧
      ((fractionPart cs).1 = [] ∨ ∃ digits, (fractionPart cs).1 = '.' :: digits ∧
      AreDigits digits) := by
  unfold fractionPart
  split
  · split
    · rename_i digit
      exact ⟨by rw [List.cons_append, List.takeWhile_append_dropWhile],
        .inr ⟨_, rfl, areDigits_takeWhile digit _⟩⟩
    · exact ⟨rfl, .inl rfl⟩
  · exact ⟨rfl, .inl rfl⟩

theorem exponentPart_spec (cs : List Char) :
    cs = (exponentPart cs).1 ++ (exponentPart cs).2 ∧
      ((exponentPart cs).1 = [] ∨ ∃ mark sign digits,
      (exponentPart cs).1 = mark :: (sign ++ digits) ∧
        mark ∈ ['e', 'E'] ∧ sign ∈ [[], ['+'], ['-']] ∧ AreDigits digits) := by
  unfold exponentPart
  split
  · split
    · rename_i marked
      split
      · rename_i digit
        refine ⟨by rw [List.cons_append, List.takeWhile_append_dropWhile],
          .inr ⟨_, [], _, rfl, ?_, ?_, ?_⟩⟩
        · simpa using marked
        · simp
        · exact areDigits_takeWhile digit _
      split
      · rename_i sign d rest _ signed
        refine ⟨by simp, .inr ⟨_, [sign], _, rfl, ?_, ?_, ?_⟩⟩
        · simpa using marked
        · simpa using signed.1
        · exact areDigits_takeWhile signed.2 _
      · exact ⟨rfl, .inl rfl⟩
    · exact ⟨rfl, .inl rfl⟩
  · split
    · rename_i mark d marked
      refine ⟨rfl, .inr ⟨mark, [], [d], rfl, ?_, ?_, ?_⟩⟩
      · simpa using marked.1
      · simp
      · exact ⟨List.cons_ne_nil _ _, by simpa using marked.2⟩
    · exact ⟨rfl, .inl rfl⟩
  · exact ⟨rfl, .inl rfl⟩

/-- The numeral in front of a text that begins with a digit. -/
theorem read_spec {d : Char} (digit : isDecimalDigit d = true) (rest : List Char) :
    d :: rest = (Numeral.read (d :: rest)).1.chars ++ (Numeral.read (d :: rest)).2 ∧
      (Numeral.read (d :: rest)).1.IsWritten := by
  obtain ⟨cut, fraction⟩ := fractionPart_spec ((d :: rest).dropWhile isDecimalDigit)
  obtain ⟨cut', exponent⟩ :=
    exponentPart_spec (fractionPart ((d :: rest).dropWhile isDecimalDigit)).2
  refine ⟨?_, areDigits_takeWhile digit rest, fraction, exponent⟩
  simp only [Numeral.read, Numeral.chars, List.append_assoc]
  rw [← cut', ← cut, List.takeWhile_append_dropWhile]

theorem scanNumber_spec {d : Char} {rest : List Char} {place : Position} {t : Token} {r : Remainder}
    (digit : isDecimalDigit d = true) (scanned : scanNumber ⟨d :: rest, place⟩ = .ok (t, r)) :
    ∃ used, d :: rest = used ++ r.chars ∧ r.place = place.advance used ∧ Lexeme t used := by
  obtain ⟨cut, written⟩ := read_spec digit rest
  unfold scanNumber at scanned
  dsimp only at scanned
  split at scanned
  · exact nomatch scanned
  split at scanned
  · rename_i token valid
    cases scanned
    exact ⟨_, cut, rfl, .number written valid⟩
  · exact nomatch scanned

/-- A string goes up to its closing quotation mark. -/
theorem stringBody_spec {opening place : Position} {cs text : List Char} {r : Remainder}
    (read : stringBody opening cs place = .ok (text, r)) :
    ∃ written, cs = written ++ '"' :: r.chars ∧ r.place = place.advance (written ++ ['"']) ∧
    Quotes written text := by
  fun_induction stringBody opening cs place generalizing text r
  case case1 | case3 | case4 | case6 | case8 => cases read
  case case2 rest p =>
    cases read
    exact ⟨[], rfl, rfl, .nil⟩
  case case5 letter rest p p' c known text' r' read' ih =>
    cases read
    obtain ⟨written, cut, passed, quotes⟩ := ih read'
    exact ⟨'\\' :: letter :: written, by rw [cut]; rfl, passed, .escaped known quotes⟩
  case case7 c rest p noQuote noEnd noEscape text' r' read' ih =>
    cases read
    obtain ⟨written, cut, passed, quotes⟩ := ih read'
    have plain : c ≠ '\\' := fun same => by
      cases rest with
      | nil => exact noEnd same rfl
      | cons letter rest => exact noEscape letter rest same rfl
    exact ⟨c :: written, by rw [cut]; rfl, passed, .plain noQuote plain quotes⟩

/-- A symbol is read from its spelling. -/
theorem symbol?_spec {cs : List Char} {mark : Symbol} {count : Nat}
    (read : symbol? cs = some (mark, count)) :
    cs.take count = mark.spelling := by
  unfold symbol? at read
  repeat' split at read
  all_goals first | (cases read; rfl) | cases read

/-- One step of the scanner reads a lexeme or passes something over. -/
theorem scan_spec {c : Char} {rest : List Char} {place : Position} {token : Option Token}
    {r : Remainder} (scanned : scan c rest place = .ok (token, r)) :
    ∃ used, c :: rest = used ++ r.chars ∧ r.place = place.advance used ∧
      token.elim (Passed used r.chars) (Lexeme · used) := by
  unfold scan at scanned
  dsimp only at scanned
  split at scanned
  · rename_i ends
    cases scanned
    exact ⟨[c], rfl, rfl, ends ▸ .newline⟩
  rename_i noEnd
  split at scanned
  · rename_i blank
    cases scanned
    exact ⟨[c], rfl, rfl, .blank blank noEnd⟩
  split at scanned
  · rename_i slashes
    cases scanned
    refine ⟨_, List.takeWhile_append_dropWhile.symm, rfl, .comment ?_ ?_ ?_⟩
    · obtain ⟨rfl, second⟩ := slashes
      obtain ⟨more, rfl⟩ : ∃ more, rest = '/' :: more := by
        cases rest with
        | nil => cases second
        | cons d more =>
            cases second
            exact ⟨more, rfl⟩
      exact ⟨more.takeWhile (· ≠ '\n'), by simp⟩
    · intro mem
      simpa using List.mem_takeWhile_imp mem
    · intro d next
      by_contra differs
      have stops := List.head?_dropWhile_not (fun x => decide (x ≠ '\n')) (c :: rest)
      simp only [Remainder.skip, Option.mem_def] at next
      rw [next] at stops
      simp [differs] at stops
  split at scanned
  · rename_i digit
    cases number : scanNumber ⟨c :: rest, place⟩ with
    | error fault =>
        rw [number] at scanned
        cases scanned
    | ok read =>
        rw [number] at scanned
        cases scanned
        exact scanNumber_spec digit number
  split at scanned
  · rename_i quote
    cases body : stringBody place rest (place.after c) with
    | error fault =>
        rw [body] at scanned
        cases scanned
    | ok read =>
        rw [body] at scanned
        cases scanned
        obtain ⟨written, cut, passed, quotes⟩ := stringBody_spec body
        subst quote
        exact ⟨'"' :: (written ++ ['"']), by rw [cut]; simp, passed, .str quotes⟩
  split at scanned
  · rename_i starts
    cases scanned
    refine ⟨_, List.takeWhile_append_dropWhile.symm, rfl, ?_⟩
    have named : IsName (String.ofList ((c :: rest).takeWhile continuesName)) := by
      refine ⟨?_, fun d mem => ?_⟩
      · rw [String.toList_ofList,
          List.takeWhile_cons_of_pos (Text.continuesName_of_startsName starts)]
        simpa using starts
      · rw [String.toList_ofList] at mem
        exact List.mem_takeWhile_imp mem
    have lexeme := Lexeme.name named
    rwa [String.toList_ofList] at lexeme
  · split at scanned
    · rename_i mark count spelt
      cases scanned
      refine ⟨_, (List.take_append_drop count (c :: rest)).symm, rfl, ?_⟩
      rw [symbol?_spec spelt]
      exact .symbol mark
    · cases scanned

theorem Lexeme.ne_nil {t : Token} {used : List Char} (h : Lexeme t used) : used ≠ [] := by
  cases h with
  | number written _ =>
      intro empty
      exact written.whole.1 (List.append_eq_nil_iff.mp (List.append_eq_nil_iff.mp empty).1).1
  | str _ => exact List.cons_ne_nil _ _
  | name named =>
      obtain ⟨first, more, shape, -⟩ := named.toList_eq_cons
      exact shape ▸ List.cons_ne_nil _ _
  | symbol mark => cases mark <;> exact List.cons_ne_nil _ _
  | newline => exact List.cons_ne_nil _ _

theorem Numeral.isNumber_of_toToken {n : Numeral} {t : Token} (valid : n.toToken = .ok t) :
    (∃ i, t = .int i) ∨ ∃ x, t = .float x := by
  unfold Numeral.toToken at valid
  dsimp only at valid
  repeat' split at valid
  · cases valid
    exact .inr ⟨_, rfl⟩
  · cases valid
    exact .inl ⟨_, rfl⟩
  · exact nomatch valid

theorem Lexeme.ne_finish {t : Token} {used : List Char} (h : Lexeme t used) : t ≠ .finish := by
  cases h with
  | number _ valid =>
    rcases Numeral.isNumber_of_toToken valid with ⟨i, rfl⟩ | ⟨x, rfl⟩ <;> exact Token.noConfusion
  | _ => exact Token.noConfusion

theorem Lexeme.eq_singleton {used : List Char} (h : Lexeme .newline used) : used = ['\n'] := by
  cases h with
  | number _ valid =>
    rcases Numeral.isNumber_of_toToken valid with ⟨i, same⟩ | ⟨x, same⟩ <;> exact nomatch same
  | newline => rfl

theorem AreDigits.no_newline {cs : List Char} (h : AreDigits cs) : '\n' ∉ cs := fun mem =>
  absurd (h.2 _ mem) (by decide)

theorem Numeral.IsWritten.no_newline {n : Numeral} (h : n.IsWritten) : '\n' ∉ n.chars := by
  simp only [Numeral.chars, List.mem_append, not_or]
  refine ⟨⟨h.whole.no_newline, ?_⟩, ?_⟩
  · rcases h.fraction with empty | ⟨digits, shape, areDigits⟩
    · exact empty ▸ List.not_mem_nil
    · rw [shape, List.mem_cons, not_or]
      exact ⟨by decide, areDigits.no_newline⟩
  · rcases h.exponent with empty | ⟨mark, sign, digits, shape, marked, signed, areDigits⟩
    · exact empty ▸ List.not_mem_nil
    · rw [shape, List.mem_cons, List.mem_append, not_or, not_or]
      refine ⟨?_, ?_, areDigits.no_newline⟩
      · rintro rfl
        exact absurd marked (by decide)
      · intro mem
        simp only [List.mem_cons, List.not_mem_nil, or_false] at signed
        rcases signed with rfl | rfl | rfl <;> simp at mem

theorem Symbol.spelling_no_newline (mark : Symbol) : '\n' ∉ mark.spelling := by
  cases mark <;> decide

/-- Only strings go over the end of a line, which is a token of its own elsewhere. -/
theorem Lexeme.eq_newline {t : Token} {used : List Char} (h : Lexeme t used) (mem : '\n' ∈ used)
    (noString : ∀ text, t ≠ .str text) : t = .newline := by
  cases h with
  | number written _ => exact absurd mem written.no_newline
  | str _ => exact absurd rfl (noString _)
  | name named => exact absurd (named.continues _ mem) (by decide +kernel)
  | symbol mark => exact absurd mem mark.spelling_no_newline
  | newline => rfl

theorem Passed.ne_nil {used rest : List Char} (h : Passed used rest) : used ≠ [] := by
  cases h with
  | blank _ _ => exact List.cons_ne_nil _ _
  | comment opens _ _ =>
      rintro rfl
      exact absurd (List.prefix_nil.mp opens) (List.cons_ne_nil _ _)

/-- Every step reads something. -/
theorem ne_nil_of_step {token : Option Token} {used rest : List Char}
    (step : token.elim (Passed used rest) (Lexeme · used)) : used ≠ [] := by
  cases token with
  | none => exact Passed.ne_nil step
  | some t => exact Lexeme.ne_nil step

/-! ## Ranges -/

/-- The characters of a text from the one with the number `start` up to the one with the number
`stop`, which is not among them.  The first character of a text has the number zero. -/
structure Span where
  start : Nat
  stop : Nat
  deriving DecidableEq, Repr

namespace Span

/-- Whether the character with the given number is in the range. -/
def Holds (s : Span) (i : Nat) : Prop := s.start ≤ i ∧ i < s.stop

/-- The characters in the range. -/
def chars (s : Span) (text : List Char) : List Char := (text.drop s.start).take (s.stop - s.start)

theorem Holds.mem_chars {s : Span} {text : List Char} {i : Nat} {c : Char} (holds : s.Holds i)
    (here : text[i]? = some c) : c ∈ s.chars text := by
  refine List.mem_of_getElem? (i := i - s.start) ?_
  rw [chars, List.getElem?_take_of_lt (Nat.sub_lt_sub_right holds.1 holds.2), List.getElem?_drop,
    Nat.add_sub_cancel' holds.1]
  exact here

theorem of_chars_singleton {s : Span} {text : List Char} {c : Char} (inside : s.stop ≤ text.length)
    (shown : s.chars text = [c]) : s = ⟨s.start, s.start + 1⟩ ∧ text[s.start]? = some c := by
  have one := congrArg List.length shown
  rw [chars, List.length_take, List.length_drop, List.length_singleton] at one
  have stop : s.stop = s.start + 1 := by omega
  refine ⟨by rw [← stop], ?_⟩
  rw [chars, stop, Nat.add_sub_cancel_left] at shown
  have first := congrArg (·[0]?) shown
  simpa using first

/-- Two slashes and what follows them in their line. -/
structure IsComment (s : Span) (text : List Char) : Prop where
  opens : ['/', '/'] <+: s.chars text
  inLine : '\n' ∉ s.chars text
  ends : s.stop = text.length ∨ text[s.stop]? = some '\n'

end Span

/-- The place of the character with the given number, or of the end of the text. -/
def placeOf (text : List Char) (i : Nat) : Position := Position.start.advance (text.take i)

/-- From a character on, the text consists of lexemes, each of which makes a token, and of what is
passed over. -/
inductive Cut (text : List Char) : Nat → List (Placed × Span) → Prop
  | nil : Cut text text.length []
  | lexeme {n : Nat} {t : Token} {used rest : List Char} {pieces : List (Placed × Span)} :
      text.drop n = used ++ rest → Lexeme t used → Cut text (n + used.length) pieces →
      Cut text n ((⟨t, placeOf text n⟩, ⟨n, n + used.length⟩) :: pieces)
  | passed {n : Nat} {used rest : List Char} {pieces : List (Placed × Span)} :
      text.drop n = used ++ rest → Passed used rest → Cut text (n + used.length) pieces →
      Cut text n pieces

section Cutting

variable {text used rest : List Char} {n : Nat} {pieces : List (Placed × Span)}

theorem placeOf_add (cut : text.drop n = used ++ rest) :
    placeOf text (n + used.length) = (placeOf text n).advance used := by
  rw [placeOf, placeOf, List.take_add, cut, List.take_left, Position.advance_append]

theorem drop_add (cut : text.drop n = used ++ rest) : text.drop (n + used.length) = rest := by
  rw [← List.drop_drop, cut, List.drop_left]

theorem length_of_drop (cut : text.drop n = used ++ rest) (some : used ≠ []) :
    n + used.length ≤ text.length := by
  have whole := congrArg List.length cut
  rw [List.length_drop, List.length_append] at whole
  have pos := List.length_pos_iff.mpr some
  omega

/-- The tokens of a text are those that it is cut into, with the end of the text behind them. -/
theorem cut_of_tokens {cs : List Char} {place : Position} {placed : List Placed}
    (read : tokens cs place = .ok placed) (inside : n ≤ text.length) (ahead : text.drop n = cs)
    (here : place = placeOf text n) :
    ∃ pieces, Cut text n pieces ∧
    placed = pieces.map Prod.fst ++ [⟨.finish, placeOf text text.length⟩] := by
  fun_induction tokens cs place generalizing n placed with
  | case1 place =>
      cases read
      have last : n = text.length := Nat.le_antisymm inside (List.drop_eq_nil_iff.mp ahead)
      subst last
      exact ⟨[], .nil, by rw [here]; rfl⟩
  | case2 => cases read
  | case3 => cases read
  | case4 place c rest token r scanned _ later found ih =>
      cases read
      obtain ⟨used, cut, passed, piece⟩ := scan_spec scanned
      rw [cut] at ahead
      subst here
      obtain ⟨pieces, rest, shown⟩ :=
        ih found (length_of_drop ahead (ne_nil_of_step piece)) (drop_add ahead)
        (passed.trans (placeOf_add ahead).symm)
      cases token with
      | none => exact ⟨pieces, .passed ahead piece rest, shown⟩
      | some t => exact ⟨_, .lexeme ahead piece rest, by rw [shown]; rfl⟩

theorem Span.chars_of_drop (cut : text.drop n = used ++ rest) :
    Span.chars ⟨n, n + used.length⟩ text = used := by
  rw [Span.chars, Nat.add_sub_cancel_left, cut, List.take_left]

end Cutting

namespace Cut

variable {text : List Char} {n : Nat} {pieces : List (Placed × Span)}

/-- Each range holds a lexeme of its token, and begins where the token was placed. -/
theorem piece (h : Cut text n pieces) : ∀ p ∈ pieces, n ≤ p.2.start ∧ p.2.start < p.2.stop ∧
    p.2.stop ≤ text.length ∧ Lexeme p.1.token (p.2.chars text) ∧
    p.1.place = placeOf text p.2.start := by
  induction h with
  | nil => exact fun p mem => nomatch mem
  | @lexeme n t used rest pieces cut lexeme _ ih =>
      have some := List.length_pos_iff.mpr lexeme.ne_nil
      intro p mem
      rcases List.mem_cons.mp mem with rfl | mem
      · exact ⟨Nat.le_refl n, Nat.lt_add_of_pos_right some, length_of_drop cut lexeme.ne_nil,
          (Span.chars_of_drop cut).symm ▸ lexeme, rfl⟩
      · obtain ⟨behind, others⟩ := ih p mem
        exact ⟨Nat.le_trans (Nat.le_add_right _ _) behind, others⟩
  | @passed n used rest pieces _ _ _ ih =>
      intro p mem
      obtain ⟨behind, others⟩ := ih p mem
      exact ⟨Nat.le_trans (Nat.le_add_right _ _) behind, others⟩

theorem ordered (h : Cut text n pieces) : pieces.Pairwise fun p q => p.2.stop ≤ q.2.start := by
  induction h with
  | nil => exact .nil
  | lexeme _ _ more ih => exact .cons (fun q mem => (more.piece q mem).1) ih
  | passed _ _ _ ih => exact ih

/-- A character in no range is blank and ends no line, or it belongs to a comment. -/
theorem between (h : Cut text n pieces) {i : Nat} {c : Char} (behind : n ≤ i)
    (here : text[i]? = some c) (outside : ∀ p ∈ pieces, ¬ p.2.Holds i) :
    (isBlank c = true ∧ c ≠ '\n') ∨
      ∃ s : Span, n ≤ s.start ∧ s.IsComment text ∧ s.Holds i ∧
        ∀ p ∈ pieces, p.2.stop ≤ s.start ∨ s.stop ≤ p.2.start := by
  induction h with
  | nil =>
      rw [List.getElem?_eq_none behind] at here
      exact nomatch here
  | @lexeme n t used rest pieces _ _ _ ih =>
      have past : n + used.length ≤ i := by
        by_contra before
        exact outside _ List.mem_cons_self ⟨behind, Nat.lt_of_not_le before⟩
      rcases ih past fun p mem => outside p (List.mem_cons_of_mem _ mem)
          with blank | ⟨s, after, comment, holds, apart⟩
      · exact .inl blank
      · refine .inr ⟨s, Nat.le_trans (Nat.le_add_right _ _) after, comment, holds, ?_⟩
        exact List.forall_mem_cons.mpr ⟨.inl after, apart⟩
  | @passed n used rest pieces cut piece more ih =>
      rcases Nat.lt_or_ge i (n + used.length) with inside | past
      · have among : used[i - n]? = some c := by
          have within : i - n < used.length := by omega
          rw [← List.getElem?_append_left within, ← cut, List.getElem?_drop,
            Nat.add_sub_cancel' behind]
          exact here
        cases piece with
        | blank blank noEnd =>
            obtain rfl := List.mem_singleton.mp (List.mem_of_getElem? among)
            exact .inl ⟨blank, noEnd⟩
        | comment opens inLine ends =>
            have shown := Span.chars_of_drop cut
            refine .inr ⟨⟨n, n + used.length⟩, Nat.le_refl n, ⟨by rwa [shown], by rwa [shown], ?_⟩,
              ⟨behind, inside⟩, fun p mem => .inr (more.piece p mem).1⟩
            rcases ends.cases with rfl | ⟨line, rfl⟩
            · left
              have whole := congrArg List.length cut
              rw [List.append_nil, List.length_drop] at whole
              change n + used.length = text.length
              omega
            · right
              have next := congrArg (·[0]?) (drop_add cut)
              simpa using next
      · rcases ih past outside with blank | ⟨s, after, others⟩
        · exact .inl blank
        · exact .inr ⟨s, Nat.le_trans (Nat.le_add_right _ _) after, others⟩

/-- No character is in two ranges. -/
theorem unique (h : Cut text n pieces) {p q : Placed × Span} (left : p ∈ pieces)
    (right : q ∈ pieces) {i : Nat} (inside : p.2.Holds i) (inside' : q.2.Holds i) : p = q := by
  have apart : pieces.Pairwise fun p q => p.2.Holds i → q.2.Holds i → p = q :=
    h.ordered.imp fun before holds holds' => absurd (Nat.lt_of_lt_of_le holds.2 before)
      (Nat.not_lt.mpr holds'.1)
  have apart' : pieces.Pairwise (flip fun p q => p.2.Holds i → q.2.Holds i → p = q) :=
    apart.imp fun same holds holds' => (same holds' holds).symm
  exact List.Pairwise.forall_of_forall_of_flip (fun _ _ _ _ => rfl) apart apart' left
    right inside inside'

/-- The ranges of the tokens that end lines are those of the line feeds that are in no string. -/
theorem newlines (h : Cut text 0 pieces) (s : Span) :
    (∃ p ∈ pieces, p.1.token = .newline ∧ p.2 = s) ↔
      ∃ i, s = ⟨i, i + 1⟩ ∧ text[i]? = some '\n' ∧ ∀ p ∈ pieces, p.2.Holds i →
      ∀ literal, p.1.token ≠ .str literal := by
  have single : ∀ p ∈ pieces, p.1.token = .newline →
      p.2 = ⟨p.2.start, p.2.start + 1⟩ ∧ text[p.2.start]? = some '\n' := by
    intro p mem isNewline
    obtain ⟨-, some, inside, lexeme, -⟩ := h.piece p mem
    rw [isNewline] at lexeme
    exact Span.of_chars_singleton inside lexeme.eq_singleton
  constructor
  · rintro ⟨p, mem, isNewline, rfl⟩
    obtain ⟨short, here⟩ := single p mem isNewline
    refine ⟨p.2.start, short, here, fun q mem' holds literal isString => ?_⟩
    obtain rfl := h.unique mem mem' ⟨Nat.le_refl _, (h.piece p mem).2.1⟩ holds
    exact nomatch isNewline.symm.trans isString
  · rintro ⟨i, rfl, here, noString⟩
    by_cases held : ∃ p ∈ pieces, p.2.Holds i
    · obtain ⟨p, mem, holds⟩ := held
      have isNewline :=
        (h.piece p mem).2.2.2.1.eq_newline (holds.mem_chars here) (noString p mem holds)
      obtain ⟨short, -⟩ := single p mem isNewline
      have first : p.2.start = i := by
        rw [short] at holds
        exact Nat.le_antisymm holds.1 (Nat.le_of_lt_succ holds.2)
      exact ⟨p, mem, isNewline, by rw [short, first]⟩
    · rcases h.between (Nat.zero_le i) here (fun p mem holds => held ⟨p, mem, holds⟩) with
        ⟨-, noEnd⟩ | ⟨s, -, comment, holds, -⟩
      · exact absurd rfl noEnd
      · exact absurd (holds.mem_chars here) comment.inLine

end Cut

/-! ## All tokens of a text -/

/-- The tokens of a text with their ranges. -/
structure Covers (text : List Char) (placed : List Placed) (pieces : List (Placed × Span)) :
    Prop where
  /-- There is one range for each token but the last one, which is the only end. -/
  tokens : placed = pieces.map Prod.fst ++ [⟨.finish, placeOf text text.length⟩]
  unfinished : ∀ p ∈ pieces, p.1.token ≠ .finish
  /-- The ranges are not empty and lie in the text, each behind the one before. -/
  inside : ∀ p ∈ pieces, p.2.start < p.2.stop ∧ p.2.stop ≤ text.length
  ordered : pieces.Pairwise fun p q => p.2.stop ≤ q.2.start
  /-- Each token is placed at the first character of its range, and is written in its range. -/
  places : ∀ p ∈ pieces, p.1.place = placeOf text p.2.start
  lexemes : ∀ p ∈ pieces, Lexeme p.1.token (p.2.chars text)
  /-- What is in no range is a blank that ends no line, or belongs to a comment, which meets no
  range. -/
  between : ∀ i c, text[i]? = some c → (∀ p ∈ pieces, ¬ p.2.Holds i) →
    (isBlank c = true ∧ c ≠ '\n') ∨
      ∃ s : Span, s.IsComment text ∧ s.Holds i ∧ ∀ p ∈ pieces, p.2.stop ≤ s.start ∨
      s.stop ≤ p.2.start
  /-- The tokens that end lines are the line feeds that are in no string. -/
  newlines : ∀ s : Span, (∃ p ∈ pieces, p.1.token = .newline ∧ p.2 = s) ↔
    ∃ i, s = ⟨i, i + 1⟩ ∧ text[i]? = some '\n' ∧ ∀ p ∈ pieces, p.2.Holds i →
    ∀ literal, p.1.token ≠ .str literal

/-- The tokens of a text cover it: each is a range of the text, and what is in no range is no part
of a token. -/
theorem tokenize_covers {source : String} {placed : List Placed}
    (read : tokenize source = .ok placed) :
    ∃ pieces, Covers source.toList placed pieces := by
  obtain ⟨pieces, cut, shown⟩ := cut_of_tokens (n := 0) read (Nat.zero_le _) List.drop_zero rfl
  refine ⟨pieces, shown, ?_, ?_, cut.ordered, ?_, ?_, ?_, cut.newlines⟩
  · exact fun p mem => (cut.piece p mem).2.2.2.1.ne_finish
  · exact fun p mem => ⟨(cut.piece p mem).2.1, (cut.piece p mem).2.2.1⟩
  · exact fun p mem => (cut.piece p mem).2.2.2.2
  · exact fun p mem => (cut.piece p mem).2.2.2.1
  · intro i c here outside
    rcases cut.between (Nat.zero_le i) here outside with blank | ⟨s, -, comment⟩
    · exact .inl blank
    · exact .inr ⟨s, comment⟩

/-- A string that goes over two lines, a comment, a line that ends with a carriage return, and no
end to the last line. -/
def ragged : String := "\"a\n\" // b\r\n\t1==x"

theorem tokenize_covers_ragged : ∃ placed pieces, tokenize ragged = .ok placed ∧
    placed = [⟨.str "a\n", ⟨1, 1⟩⟩, ⟨.newline, ⟨2, 8⟩⟩, ⟨.int 1, ⟨3, 2⟩⟩, ⟨.symbol .eq, ⟨3, 3⟩⟩,
      ⟨.name "x", ⟨3, 5⟩⟩, ⟨.finish, ⟨3, 6⟩⟩] ∧ Covers ragged.toList placed pieces := by
  have read : tokenize ragged = .ok [⟨.str "a\n", ⟨1, 1⟩⟩, ⟨.newline, ⟨2, 8⟩⟩, ⟨.int 1, ⟨3, 2⟩⟩,
      ⟨.symbol .eq, ⟨3, 3⟩⟩, ⟨.name "x", ⟨3, 5⟩⟩, ⟨.finish, ⟨3, 6⟩⟩] := by cbv
  obtain ⟨pieces, covers⟩ := tokenize_covers read
  exact ⟨_, pieces, read, rfl, covers⟩

end PeerScript.Script
