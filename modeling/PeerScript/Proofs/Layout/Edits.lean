import Mathlib
import PeerScript.Proofs.Layout.Readers

/-!
# Changes of the layout of a script

A script may be laid out in another way: directly inside of parentheses and square brackets line
ends come and go, elsewhere a line end stands for a semicolon and the reverse, and either may be
repeated.  None of these changes the `outline` of a script, so it is read as the same tree, or is
read as none, whatever the place of the change.
-/

set_option autoImplicit false

namespace PeerScript.Script

open Text (Position)

/-- The delimiters that are open behind some tokens, innermost first. -/
def openBehind (ts : List Token) : List Symbol := ts.foldl Token.opened []

/-- A change of the layout of a script at one place. -/
inductive Relaid : List Token → List Token → Prop
  /-- A line end more, directly inside of parentheses or square brackets. -/
  | spread (before after : List Token) : isLoose (openBehind before) = true →
      Relaid (before ++ after) (before ++ .newline :: after)
  /-- One separator for another, directly inside of braces or outside of all delimiters. -/
  | exchanged (before after : List Token) {t u : Token} : isLoose (openBehind before) = false →
      t.separates = true → u.separates = true → Relaid (before ++ t :: after) (before ++ u :: after)
  /-- A separator once more, directly inside of braces or outside of all delimiters. -/
  | doubled (before after : List Token) {t : Token} : isLoose (openBehind before) = false →
    t.separates = true →
      Relaid (before ++ t :: after) (before ++ t :: t :: after)

section Outlines

variable {stack : List Symbol} {ts us : List Token}

theorem opened_of_separates {t : Token} (separates : t.separates = true) :
    t.opened stack = stack := by
  cases t with
  | symbol mark => cases mark <;> first | rfl | exact nomatch separates
  | _ => rfl

theorem outline_append_congr (before : List Token) :
    ∀ {stack : List Symbol}, outline (before.foldl Token.opened stack) ts =
      outline (before.foldl Token.opened stack) us →
      outline stack (before ++ ts) = outline stack (before ++ us) := by
  induction before with
  | nil => exact fun same => same
  | cons t before ih =>
      intro stack same
      have rest := ih same
      rw [List.cons_append, List.cons_append, outline, outline]
      split
      · split
        · rename_i ends
          rwa [opened_of_separates (separates_of_isNewline ends)] at rest
        · rw [rest]
      · split
        · rename_i separates
          rw [opened_of_separates separates] at rest
          rw [rest]
        · rw [rest]

/-- A change of the layout leaves the outline as it is, whatever follows. -/
theorem Relaid.outline_eq (h : Relaid ts us) (rest : List Token) :
    outline [] (ts ++ rest) = outline [] (us ++ rest) := by
  cases h with
  | spread before after loose =>
      rw [List.append_assoc, List.append_assoc]
      exact outline_append_congr before (outline_newline loose rfl).symm
  | exchanged before after strict separates separates' =>
      rw [List.append_assoc, List.append_assoc]
      refine outline_append_congr before ?_
      rw [List.cons_append, List.cons_append]
      exact (outline_separator strict separates).trans (outline_separator strict separates').symm
  | @doubled before after t strict separates =>
      rw [List.append_assoc, List.append_assoc]
      refine outline_append_congr before ?_
      have once : outline _ (t :: (after ++ rest)) = _ := outline_separator strict separates
      have twice : outline _ (t :: t :: (after ++ rest)) = _ := outline_separator strict separates
      rw [once, List.dropWhile_cons_of_pos (show Token.separates .newline = true from rfl),
        List.dropWhile_idempotent] at twice
      exact once.trans twice.symm

theorem outline_eq_of_relaid (h : Relation.EqvGen Relaid ts us) (rest : List Token) :
    outline [] (ts ++ rest) = outline [] (us ++ rest) := by
  induction h with
  | rel _ _ step => exact step.outline_eq rest
  | refl => rfl
  | symm _ _ _ ih => exact ih.symm
  | trans _ _ _ _ _ ih ih' => exact ih.trans ih'

end Outlines

/-- Scripts with one outline are read as the same tree. -/
theorem Rho.parse_of_outline {ctx : Context} {ps qs : List Placed} {serial : Nat} {r : Tree × Nat}
    (same : outline [] (ps.map Placed.token) = outline [] (qs.map Placed.token))
    (whole : AreWhole (ps.map Placed.token)) (whole' : AreWhole (qs.map Placed.token))
    (parsed : Rho.parse ctx ps serial = .ok r) : Rho.parse ctx qs serial = .ok r := by
  let w : Whereabouts := ⟨[], 0, ps.length, qs.length⟩
  have fits : w.Fits := by
    constructor <;> exact fun h => nomatch h
  have similar : Similar w ⟨ps, 0, [[]], serial⟩ ⟨qs, 0, [[]], serial⟩ :=
    ⟨same, rfl, rfl, rfl, rfl, whole, whole', Nat.le_refl _, Nat.le_refl _⟩
  have tracks :=
    (tower_tracks ctx (ps.length + 1) (qs.length + 1)).statements nestingLimit .finish w fits rfl
    (Nat.le_succ _)
  rw [Rho.parse] at parsed ⊢
  cases ran : (tower ctx (ps.length + 1)).statements nestingLimit .finish ⟨ps, 0, [[]], serial⟩ with
  | error fault =>
      simp only [ran] at parsed
      exact nomatch parsed
  | ok read =>
      obtain ⟨ts, c⟩ := read
      simp only [ran] at parsed
      obtain ⟨ts', d, ran', rfl, behind⟩ := tracks similar ran
      simp only [ran']
      cases parsed
      rw [behind.serial]
      rfl

/-- Tokens as a whole script, which ends at the given place. -/
def ended (ps : List Placed) (place : Position) : List Placed := ps ++ [⟨.finish, place⟩]

theorem tokens_ended (ps : List Placed) (place : Position) :
    (ended ps place).map Placed.token = ps.map Placed.token ++ [.finish] :=
  List.map_append

theorem whole_ended (ps : List Placed) (place : Position) :
    AreWhole ((ended ps place).map Placed.token) := by
  rw [tokens_ended]
  exact List.mem_append_right _ List.mem_cons_self

/-- However often the layout of a script is changed, and back, it is read as the same tree or is
read as none. -/
theorem Rho.parse_eq_of_relaid (ctx : Context) (ps qs : List Placed) (place place' : Position)
    (serial : Nat) (relaid : Relation.EqvGen Relaid (ps.map Placed.token) (qs.map Placed.token)) :
    (Rho.parse ctx (ended ps place) serial).toOption =
    (Rho.parse ctx (ended qs place') serial).toOption := by
  have same : outline [] ((ended ps place).map Placed.token) =
      outline [] ((ended qs place').map Placed.token) := by
    rw [tokens_ended, tokens_ended]
    exact outline_eq_of_relaid relaid _
  cases left : Rho.parse ctx (ended ps place) serial with
  | ok r => rw [Rho.parse_of_outline same (whole_ended ps place) (whole_ended qs place') left]
  | error fault =>
      cases right : Rho.parse ctx (ended qs place') serial with
      | ok r =>
          have back :=
            Rho.parse_of_outline same.symm (whole_ended qs place') (whole_ended ps place) right
          exact nomatch left.symm.trans back
      | error fault' => rfl

/-- A call over two lines, and another statement on the second of them. -/
def sprawling : List Token :=
  [.name "f", .symbol .lParen, .int 1, .symbol .comma, .newline, .int 2, .symbol .rParen,
    .symbol .semi, .name "g"]

/-- The same call on one line, and the other statement behind an empty line. -/
def onOneLine : List Token :=
  [.name "f", .symbol .lParen, .int 1, .symbol .comma, .int 2, .symbol .rParen, .newline,
    .newline, .name "g"]

/-- A line end between arguments is taken away, and a semicolon becomes two line ends. -/
theorem Rho.parse_eq_of_relaid_call :
    Relation.EqvGen Relaid sprawling onOneLine ∧
    (Rho.parse ⟨fun _ => true, .empty⟩ (ended (sprawling.map (⟨·, .start⟩)) .start) 0).toOption =
      (Rho.parse ⟨fun _ => true, .empty⟩ (ended (onOneLine.map (⟨·, .start⟩)) .start) 0).toOption ∧
    (Rho.parse ⟨fun _ => true, .empty⟩ (ended (onOneLine.map (⟨·, .start⟩)) .start) 0).toOption =
      some (.sequence [.invoke ⟨["f"]⟩ [.literal (.int 1), .literal (.int 2)], .reference ⟨["g"]⟩],
        0) := by
  have joined : Relaid
      [.name "f", .symbol .lParen, .int 1, .symbol .comma, .int 2, .symbol .rParen,
        .symbol .semi, .name "g"]
      sprawling :=
    .spread [.name "f", .symbol .lParen, .int 1, .symbol .comma]
      [.int 2, .symbol .rParen, .symbol .semi, .name "g"] rfl
  have ended' : Relaid
      [.name "f", .symbol .lParen, .int 1, .symbol .comma, .int 2, .symbol .rParen,
        .symbol .semi, .name "g"]
      [.name "f", .symbol .lParen, .int 1, .symbol .comma, .int 2, .symbol .rParen,
        .newline, .name "g"] :=
    .exchanged [.name "f", .symbol .lParen, .int 1, .symbol .comma, .int 2, .symbol .rParen]
      [.name "g"] rfl rfl rfl
  have doubled : Relaid
      [.name "f", .symbol .lParen, .int 1, .symbol .comma, .int 2, .symbol .rParen, .newline,
        .name "g"] onOneLine :=
    .doubled [.name "f", .symbol .lParen, .int 1, .symbol .comma, .int 2, .symbol .rParen]
      [.name "g"] rfl rfl
  have relaid : Relation.EqvGen Relaid sprawling onOneLine :=
    .trans _ _ _ (.symm _ _ (.rel _ _ joined)) (.trans _ _ _ (.rel _ _ ended') (.rel _ _ doubled))
  exact ⟨relaid, Rho.parse_eq_of_relaid _ _ _ _ _ _ relaid, by cbv⟩

end PeerScript.Script
