import Mathlib
import PeerScript.Proofs.Diagnostics.Readers
import PeerScript.Proofs.Tokens.Spans

/-!
# Where a text is found to be wrong

A text that is no script is refused with the place of some character of it, or of its end: the
scanner names the place of the lexeme that it cannot read, and the readers name the place of a
token.

One complaint is an exception.  Where a string has a letter behind a backslash that means nothing
there, the place is found by going back one column behind that letter.  If it is a line feed, this
is no place of the text but the column zero of the next line.  `diagnostics_placed` says that
nothing else is misplaced.
-/

set_option autoImplicit false

namespace PeerScript

open Text (Position)

/-- The place that a fault names if it was found in a text. -/
def Fault.place? : Fault → Option Position
  | .malformed place _ | .unknownName place _ => some place
  | _ => none

/-- Whether a fault is the complaint about a line feed behind a backslash. -/
def Fault.isBrokenEscape : Fault → Bool
  | .malformed _ (.unknownEscape letter) => letter == '\n'
  | _ => false

/-- A fault that points somewhere names the place, and is not about a backslash. -/
theorem Fault.Points.named {P : Position → Prop} {fault : Fault} (h : fault.Points P) :
    ∃ place, fault.place? = some place ∧ P place ∧ fault.isBrokenEscape = false := by
  cases h with
  | malformed known noEscape =>
      refine ⟨_, rfl, known, ?_⟩
      unfold isBrokenEscape
      split
      · rename_i same
        cases same
        exact nomatch noEscape
      · rfl
  | unknownName known => exact ⟨_, rfl, known, rfl⟩

/-! ## Places -/

namespace Text.Position

theorem column_advance_pos {p : Position} (pos : 0 < p.column) (cs : List Char) :
    0 < (p.advance cs).column := by
  induction cs generalizing p with
  | nil => exact pos
  | cons c cs ih =>
      refine ih ?_
      unfold after
      split
      · exact Nat.one_pos
      · exact Nat.succ_pos _

theorem before_after {c : Char} (inLine : c ≠ '\n') (p : Position) : (p.after c).before = p := by
  rw [after, if_neg inLine]
  rfl

theorem before_after_newline (p : Position) : (p.after '\n').before = ⟨p.line + 1, 0⟩ := rfl

theorem line_after {c : Char} (inLine : c ≠ '\n') (p : Position) : (p.after c).line = p.line := by
  rw [after, if_neg inLine]

end Text.Position

namespace Script

variable {text : List Char} {place : Position} {fault : Fault}

theorem column_placeOf_pos (text : List Char) (i : Nat) : 0 < (placeOf text i).column :=
  Position.column_advance_pos Nat.one_pos _

theorem placeOf_succ {i : Nat} {c : Char} (here : text[i]? = some c) :
    placeOf text (i + 1) = (placeOf text i).after c := by
  rw [placeOf, placeOf, List.take_add_one, here, Position.advance_append]
  rfl

/-! ## What the scanner cannot read -/

/-- A string fails where it was opened, if it is not closed, or behind a backslash. -/
theorem stringBody_fails {opening : Position} {cs : List Char}
    (failed : stringBody opening cs place = .error fault) :
    fault = .malformed opening .unterminatedString ∨
      ∃ written letter more, cs = written ++ '\\' :: letter :: more ∧
        fault = .malformed (((place.advance written).after '\\').after letter).before
          (.unknownEscape letter) := by
  fun_induction stringBody opening cs place
  case case1 | case3 =>
    cases failed
    exact .inl rfl
  case case2 | case5 | case7 => cases failed
  case case4 letter rest p _ unknown =>
    cases failed
    exact .inr ⟨[], letter, rest, rfl, rfl⟩
  case case6 letter rest p _ c known fault' failed' ih =>
    cases failed
    rcases ih failed' with opened | ⟨written, letter', more, cut, shown⟩
    · exact .inl opened
    · exact .inr ⟨'\\' :: letter :: written, letter', more, by rw [cut]; rfl, shown⟩
  case case8 c rest p _ _ _ fault' failed' ih =>
    cases failed
    rcases ih failed' with opened | ⟨written, letter', more, cut, shown⟩
    · exact .inl opened
    · exact .inr ⟨c :: written, letter', more, by rw [cut]; rfl, shown⟩

theorem scanNumber_fails {r : Remainder} (failed : scanNumber r = .error fault) :
    ∃ complaint, fault = .malformed r.place complaint ∧ complaint.isEscape = false := by
  unfold scanNumber at failed
  dsimp only at failed
  split at failed
  · cases failed
    exact ⟨_, rfl, rfl⟩
  split at failed
  · exact nomatch failed
  · rename_i invalid
    cases failed
    unfold Numeral.toToken at invalid
    dsimp only at invalid
    repeat' split at invalid
    all_goals cases invalid
    exact ⟨_, rfl, rfl⟩

/-- One step of the scanner fails where it begins, or behind a backslash. -/
theorem scan_fails {c : Char} {rest : List Char} (failed : scan c rest place = .error fault) :
    (∃ complaint, fault = .malformed place complaint ∧ complaint.isEscape = false) ∨
      ∃ written letter more, c :: rest = written ++ '\\' :: letter :: more ∧
        fault = .malformed (((place.advance written).after '\\').after letter).before
          (.unknownEscape letter) := by
  unfold scan at failed
  dsimp only at failed
  split at failed
  · exact nomatch failed
  split at failed
  · exact nomatch failed
  split at failed
  · exact nomatch failed
  split at failed
  · split at failed
    · exact nomatch failed
    · rename_i number
      cases failed
      exact .inl (scanNumber_fails number)
  split at failed
  · split at failed
    · exact nomatch failed
    · rename_i body
      cases failed
      rcases stringBody_fails body with opened | ⟨written, letter, more, cut, shown⟩
      · exact .inl ⟨_, opened, rfl⟩
      · exact .inr ⟨c :: written, letter, more, by rw [cut]; rfl, shown⟩
  split at failed
  · exact nomatch failed
  split at failed
  · exact nomatch failed
  · cases failed
    exact .inl ⟨_, rfl, rfl⟩

/-- What the scanner cannot read is at the place of a character, or it is the letter behind a
backslash. -/
theorem tokens_fails {cs : List Char} {n : Nat} (failed : tokens cs place = .error fault)
    (inside : n ≤ text.length) (ahead : text.drop n = cs) (here : place = placeOf text n) :
    (fault.Points fun place => ∃ i, i ≤ text.length ∧ place = placeOf text i) ∨
      ∃ i letter, text[i]? = some '\\' ∧ text[i + 1]? = some letter ∧
        fault = .malformed ((placeOf text (i + 1)).after letter).before
          (.unknownEscape letter) := by
  fun_induction tokens cs place generalizing n with
  | case1 => cases failed
  | case2 place c rest fault' stopped =>
      cases failed
      subst here
      rcases scan_fails stopped with ⟨complaint, rfl, noEscape⟩
          | ⟨written, letter, more, cut, shown⟩
      · exact .inl (.malformed ⟨n, inside, rfl⟩ noEscape)
      · rw [cut] at ahead
        have behind := drop_add ahead
        have slash : text[n + written.length]? = some '\\' := by
          have first := congrArg (·[0]?) behind
          simpa using first
        have next : text[n + written.length + 1]? = some letter := by
          have second := congrArg (·[1]?) behind
          simpa using second
        refine .inr ⟨n + written.length, letter, slash, next, ?_⟩
        rw [placeOf_succ slash, placeOf_add ahead]
        exact shown
  | case3 place c rest token r scanned _ fault' stopped ih =>
      cases failed
      obtain ⟨used, cut, passed, piece⟩ := scan_spec scanned
      rw [cut] at ahead
      subst here
      exact ih stopped (length_of_drop ahead (ne_nil_of_step piece)) (drop_add ahead)
        (passed.trans (placeOf_add ahead).symm)
  | case4 => cases failed

/-- Every token is at the place of a character or of the end. -/
theorem places_of_tokenize {source : String} {placed : List Placed}
    (read : tokenize source = .ok placed) :
    ∀ t ∈ placed, ∃ i, i ≤ source.toList.length ∧ t.place = placeOf source.toList i := by
  obtain ⟨pieces, cut, rfl⟩ := cut_of_tokens (n := 0) read (Nat.zero_le _) List.drop_zero rfl
  intro t mem
  rcases List.mem_append.mp mem with piece | last
  · obtain ⟨p, among, rfl⟩ := List.mem_map.mp piece
    obtain ⟨-, some, within, -, place⟩ := cut.piece p among
    exact ⟨p.2.start, Nat.le_of_lt (Nat.lt_of_lt_of_le some within), place⟩
  · obtain rfl := List.mem_singleton.mp last
    exact ⟨source.toList.length, Nat.le_refl _, rfl⟩

/-! ## What is refused -/

/-- The readers point into the text, and the scanner does unless it complains of the letter behind a
backslash. -/
theorem parse_fails {language : Language} {ctx : Context} {source : String} {serial : Nat}
    (failed : parse language ctx source serial = .error fault) :
    (fault.Points fun place => ∃ i, i ≤ source.toList.length ∧ place = placeOf source.toList i) ∨
      ∃ i letter, source.toList[i]? = some '\\' ∧ source.toList[i + 1]? = some letter ∧
        fault = .malformed ((placeOf source.toList (i + 1)).after letter).before
          (.unknownEscape letter) := by
  rw [parse] at failed
  split at failed
  · rename_i stopped
    cases failed
    exact tokens_fails (n := 0) stopped (Nat.zero_le _) List.drop_zero rfl
  · rename_i placed read
    have start : ∃ i, i ≤ source.toList.length ∧ Position.start = placeOf source.toList i :=
      ⟨0, Nat.zero_le _, rfl⟩
    left
    split at failed
    · exact Rho.parse_reports start (places_of_tokenize read) failed
    · exact Pi.parse_reports start (places_of_tokenize read) failed

/-- A text that is refused is refused at the place of one of its characters or of its end, unless
the complaint is about a line feed behind a backslash; and then it names no such place but the
column in front of the next line. -/
theorem diagnostics_placed {language : Language} {ctx : Context} {source : String} {serial : Nat}
    {fault : Fault} (failed : parse language ctx source serial = .error fault) :
    ∃ place, fault.place? = some place ∧
      ((∃ i, i ≤ source.toList.length ∧ place = placeOf source.toList i) ↔
      fault.isBrokenEscape = false) ∧
      (fault.isBrokenEscape = true → ∃ i, source.toList[i]? = some '\\' ∧
      source.toList[i + 1]? = some '\n' ∧
        place = ⟨(placeOf source.toList i).line + 1, 0⟩) := by
  rcases parse_fails failed with points | ⟨i, letter, slash, next, rfl⟩
  · obtain ⟨place, named, known, whole⟩ := points.named
    exact ⟨place, named, ⟨fun _ => whole, fun _ => known⟩,
      fun broken => nomatch whole.symm.trans broken⟩
  by_cases inLine : letter = '\n'
  · subst inLine
    have inFront : ((placeOf source.toList (i + 1)).after '\n').before =
        ⟨(placeOf source.toList i).line + 1, 0⟩ := by
      rw [Position.before_after_newline, placeOf_succ slash, Position.line_after (by decide)]
    refine ⟨_, rfl, ⟨fun ⟨j, _, same⟩ => ?_, fun whole => nomatch whole⟩,
      fun _ => ⟨i, slash, next, inFront⟩⟩
    have pos := column_placeOf_pos source.toList j
    rw [← same, inFront] at pos
    exact nomatch pos
  · have whole : (Fault.malformed ((placeOf source.toList (i + 1)).after letter).before
        (.unknownEscape letter)).isBrokenEscape = false := beq_false_of_ne inLine
    have inside := (List.getElem?_eq_some_iff.mp next).1
    refine ⟨_, rfl, ⟨fun _ => whole, fun _ => ?_⟩, fun broken => nomatch whole.symm.trans broken⟩
    exact ⟨i + 1, Nat.le_of_lt inside, Position.before_after inLine _⟩

/-- The scope and the registry of a script to which nothing is known. -/
def bare : Context := ⟨fun _ => false, .empty⟩

/-- An expression that goes on in the next line, where the text ends. -/
theorem diagnostics_placed_atEnd : ∃ place, parse .rho bare "x = (1 +\n" 0 =
      .error (.malformed place (.expected "expression" .finish)) ∧
    Fault.place? (.malformed place (.expected "expression" .finish)) = some place ∧
    ∃ i, i ≤ "x = (1 +\n".toList.length ∧ place = placeOf "x = (1 +\n".toList i := by
  have failed : parse .rho bare "x = (1 +\n" 0 =
      .error (.malformed ⟨2, 1⟩ (.expected "expression" .finish)) := by
    cbv
  obtain ⟨place, named, inText, -⟩ := diagnostics_placed failed
  cases named
  exact ⟨_, failed, rfl, inText.mpr rfl⟩

/-- A backslash in front of a line feed is complained of at the column zero of the next line, where
no character is and the text does not end. -/
theorem diagnostics_misplaced :
    parse .pi bare "\"\\\n" 0 = .error (.malformed ⟨2, 0⟩ (.unknownEscape '\n')) ∧
      ∀ i, placeOf "\"\\\n".toList i ≠ ⟨2, 0⟩ := by
  refine ⟨by cbv, fun i same => ?_⟩
  have pos := column_placeOf_pos "\"\\\n".toList i
  rw [same] at pos
  cases pos

end Script

end PeerScript
