import Mathlib
import PeerScript.Proofs.Translation.Terms

/-!
# Scripts of statements in the compact language

A script of the language of statements is read as a tree that has a written form in the compact
language.  `parse_rho_render` says when the written form is read as the same tree in the same scope,
for a tree that binds neither `true` nor `false`: exactly when it nests on no more levels than a
script may use.

The two languages do not count levels alike: in the language of statements only what stands in
parentheses, in brackets or behind a prefix operator is deeper than what it stands in, and in the
compact language every operand is.  So a sum of many operands, which any script of statements may
contain, is too deep when it is written in the compact language.
-/

set_option autoImplicit false

namespace PeerScript

open Script (Token nestingLimit)

/-- Whether a token is a floating point number. -/
def Script.Token.isFloat : Token → Bool
  | .float _ => true
  | _ => false

/-- A text among whose tokens there is no floating point number. -/
def Script.IsFloatless (source : String) : Prop :=
  ∀ placed, Script.tokenize source = .ok placed → ∀ t ∈ placed, t.token.isFloat = false

theorem Script.isFloatless_of_all {source : String}
    (all : (Script.tokenize source).toOption.all
      (fun placed => placed.all fun t => !t.token.isFloat) =
      true) : Script.IsFloatless source := by
  intro placed cut t mem
  rw [cut] at all
  have checked := List.all_eq_true.mp all t mem
  rwa [Bool.not_eq_true'] at checked

/-- A script of the language of statements, without floating point literals and where no types are
registered, that binds no literal is read again from its written form in the compact language
exactly when it is not too deep for it. -/
theorem parse_rho_render (e : Encoder) {ctx : Script.Context}
    (bare : ∀ name, ctx.registry.contains name = false) {source : String}
    (floatless : Script.IsFloatless source) {serial next : Nat} {t : Tree}
    (parsed : Script.parse .rho ctx source serial = .ok (t, next)) (plain : t.BindsPlain)
    (again : Nat) :
    Script.parse .pi ctx (e.render t) again = .ok (t, again) ↔ t.nesting ≤ nestingLimit := by
  rw [Script.parse] at parsed
  cases cut : Script.tokenize source with
  | error fault =>
      rw [cut] at parsed
      cases parsed
  | ok placed =>
      rw [cut] at parsed
      have noFloat : ∀ t ∈ placed, ∀ x, t.token ≠ .float x := by
        intro t mem x isFloat
        have no := floatless placed cut t mem
        rw [isFloat] at no
        cases no
      have isExact := fun t mem => Script.isExact_of_tokens cut t mem (noFloat t mem)
      obtain ⟨-, isScript, inScope⟩ := Script.Rho.parse_gives bare isExact parsed
      constructor
      · intro read
        exact (Script.parse_pi_fits bare read).2 (isScript plain)
      · intro shallow
        exact parse_render_inScope e t (isScript plain) shallow inScope again

/-- A function that is called with a list: its parameter is in view in its body only, and it is in
view itself where it is called. -/
def doubling : String := "double = fun(a) { a * 2 }\ndouble([-1, double])"

set_option maxRecDepth 20000 in
theorem parse_rho_render_doubling : ∃ t,
    Script.parse .rho ⟨fun _ => false, .empty⟩ doubling 0 = .ok (t, 0) ∧
      t.BindsPlain ∧ t.nesting ≤ nestingLimit ∧
      Script.parse .pi ⟨fun _ => false, .empty⟩ ((Encoder.plain .empty).render t) 7 =
        .ok (t, 7) := by
  have parsed : Script.parse .rho ⟨fun _ => false, .empty⟩ doubling 0 =
      .ok (.sequence [.bind "double" (.literal (.closure ["a"] (.sequence
          [.op .mul [.reference ⟨["a"]⟩, .literal (.int 2)]]) none)),
        .invoke ⟨["double"]⟩ [.call .list [.literal (.int (-1)), .reference ⟨["double"]⟩]]],
        0) := by
    cbv
  have floatless : Script.IsFloatless doubling := Script.isFloatless_of_all (by cbv)
  refine ⟨_, parsed, by decide, by decide, ?_⟩
  exact (parse_rho_render (.plain .empty) (fun _ => rfl) floatless parsed (by decide) 7).mpr
    (by decide)

/-! ## A sum of many operands -/

/-- The number one. -/
def oneTree : Tree := .literal (.int 1)

/-- What it is read as to add one to a tree some number of times. -/
def addedOnes : Nat → Tree → Tree
  | 0, t => t
  | n + 1, t => addedOnes n (.op .add [t, oneTree])

/-- Ones, each behind a plus. -/
def addedText : Nat → List Char
  | 0 => []
  | n + 1 => '+' :: '1' :: addedText n

/-- The sum of a one and the given number of further ones. -/
def sumText (n : Nat) : String := String.ofList ('1' :: addedText n)

/-- The tokens of ones, each behind a plus. -/
def addedTokens : Nat → List Token
  | 0 => [.finish]
  | n + 1 => .symbol .plus :: .int 1 :: addedTokens n

theorem nesting_addedOnes {t : Tree} (n : Nat) (pos : 0 < t.nesting) :
    (addedOnes n t).nesting = t.nesting + n := by
  induction n generalizing t with
  | zero => rfl
  | succ n ih =>
      have deeper : (Tree.op .add [t, oneTree]).nesting = t.nesting + 1 := by
        simp [Tree.op, oneTree, Tree.nesting, Tree.deepest, Value.nesting,
          show (1 : Int64) ≠ Int64.minValue by decide]
        omega
      rw [addedOnes, ih (by omega), deeper]
      omega

namespace Script

open Script.Parser

theorem lexes_one {rest : List Char} {ts : List Token} (ends : EndsWord rest)
    (noPoint : rest.head? ≠ some '.') (more : Lexes rest ts) :
    Lexes ('1' :: rest) (.int 1 :: ts) := by
  have one : Nat.toDigits 10 1 = ['1'] := by decide
  have read := Lexes.digits (n := 1) (by decide) ends noPoint more
  rw [one] at read
  exact read

theorem addedText_ends (n : Nat) : EndsWord (addedText n) ∧ (addedText n).head? ≠ some '.' := by
  cases n with
  | zero => exact ⟨nofun, nofun⟩
  | succ n =>
      refine ⟨?_, by simp [addedText]⟩
      rintro c ⟨⟩
      decide

theorem lexes_added : ∀ n, Lexes (addedText n) (addedTokens n)
  | 0 => .nil
  | n + 1 => .solid .plus rfl (lexes_one (addedText_ends n).1 (addedText_ends n).2 (lexes_added n))

theorem lexes_sum (n : Nat) : Lexes (sumText n).toList (.int 1 :: addedTokens n) := by
  rw [sumText, String.toList_ofList]
  exact lexes_one (addedText_ends n).1 (addedText_ends n).2 (lexes_added n)

namespace Rho

variable {ctx : Context} {inner : Inner} {levels : Nat} {I : Invariant} {c : Cursor}

/-- Operators of one level, in front of what is none of them. -/
theorem chain_stops {operators : List (Symbol × Operator)} (operand : Parser Tree) (allowance : Nat)
    (left : Tree) {t : Token} {ts : List Token} (none : operatorOf? operators t = none)
    (stands : Stands I c (t :: ts)) : chain operators operand allowance left c = .ok (left, c) := by
  cases allowance with
  | zero => rfl
  | succ allowance =>
      rw [chain, bind_of_ok stands.peek, none]
      rfl

/-- An operand of which no operator of a tighter level takes anything. -/
theorem binary_one {t : Token} {ts : List Token} :
    ∀ tighter :
    List (List (Symbol × Operator)), (∀ operators ∈ tighter, operatorOf? operators t = none) →
      ∀ {c : Cursor}, Stands I c (.int 1 :: t :: ts) →
        ∃ c', binary (unary ctx inner levels) tighter c = .ok (oneTree, c') ∧ Stands I c' (t :: ts)
  | [], _, c, stands => by
      obtain ⟨first, c', taken, shown, stands'⟩ := stands.advance
      refine ⟨c', ?_, stands'⟩
      rw [binary, unary, bind_of_ok stands.peek]
      simp only
      rw [primary, bind_of_ok taken]
      simp only [shown]
      rfl
  | operators :: tighter, noneOfThem, c, stands => by
      obtain ⟨own, others⟩ := List.forall_mem_cons.mp noneOfThem
      obtain ⟨c', read, stands'⟩ := binary_one tighter others stands
      refine ⟨c', ?_, stands'⟩
      rw [binary, bind_of_ok read, bind_of_ok stands'.remaining]
      exact chain_stops _ _ _ own stands'

theorem operatorOf?_finish (operators : List (Symbol × Operator)) :
    operatorOf? operators .finish = none := rfl

/-- The end of a script ends the operators of the looser levels as well. -/
theorem binary_looser {operand : Parser Tree} {tighter : List (List (Symbol × Operator))} {t : Tree}
    {c' : Cursor} (read : binary operand tighter c = .ok (t, c')) (stands : Stands I c' [.finish]) :
    ∀ looser : List (List (Symbol × Operator)),
      binary operand (looser ++ tighter) c = .ok (t, c')
  | [] => read
  | operators :: looser => by
      rw [List.cons_append, binary, bind_of_ok (binary_looser read stands looser),
        bind_of_ok stands.remaining]
      exact chain_stops _ _ _ (operatorOf?_finish operators) stands

/-- Additions, one after another. -/
theorem chain_added {operand : Parser Tree}
    (one : ∀ {t : Token} {ts : List Token} {c : Cursor}, (t = .finish ∨ t = .symbol .plus) →
      Stands I c (.int 1 :: t :: ts) → ∃ c', operand c = .ok (oneTree, c') ∧
      Stands I c' (t :: ts)) :
    ∀ (n : Nat) {allowance : Nat} (left : Tree) {c : Cursor}, n ≤ allowance →
      Stands I c (addedTokens n) →
      ∃ c', chain [(.plus, .add), (.minus, .sub)] operand allowance left c =
        .ok (addedOnes n left, c') ∧ Stands I c' [.finish]
  | 0, allowance, left, c, _, stands =>
      ⟨c, chain_stops operand allowance left rfl stands, stands⟩
  | n + 1, 0, _, _, enough, _ => absurd enough (Nat.not_succ_le_zero n)
  | n + 1, allowance + 1, left, c, enough, stands => by
      obtain ⟨_, c₁, taken, -, stands₁⟩ := stands.advance
      have next : ∃ t ts, addedTokens n = t :: ts ∧ (t = .finish ∨ t = .symbol .plus) := by
        cases n with
        | zero => exact ⟨_, _, rfl, .inl rfl⟩
        | succ n => exact ⟨_, _, rfl, .inr rfl⟩
      obtain ⟨t, ts, shape, kind⟩ := next
      rw [shape] at stands₁
      obtain ⟨c₂, read, stands₂⟩ := one kind stands₁
      rw [← shape] at stands₂
      obtain ⟨c₃, rest, stands₃⟩ :=
        chain_added one n (.op .add [left, oneTree]) (Nat.le_of_succ_le_succ enough) stands₂
      refine ⟨c₃, ?_, stands₃⟩
      rw [chain, bind_of_ok stands.peek]
      have found : operatorOf? [(.plus, .add), (.minus, .sub)] (.symbol .plus) = some .add := rfl
      rw [found]
      simp only
      rw [bind_of_ok taken, bind_of_ok read, rest]
      rfl

theorem addedTokens_length (n : Nat) : n ≤ (addedTokens n).length := by
  induction n with
  | zero => exact Nat.zero_le _
  | succ n ih =>
      simp only [addedTokens, List.length_cons]
      omega

theorem expression_sum (ctx : Context) (inner : Inner) (levels n : Nat)
    (stands : Stands I c (.int 1 :: addedTokens n)) :
    ∃ c', expression ctx inner (levels + 1) c = .ok (addedOnes n oneTree, c') ∧
      Stands I c' [.finish] := by
  have one : ∀ {t : Token} {ts : List Token} {c : Cursor}, (t = .finish ∨ t = .symbol .plus) →
      Stands I c (.int 1 :: t :: ts) →
      ∃ c', binary (unary ctx inner levels) [[(.star, .mul), (.slash, .div), (.percent, .rem)]] c =
        .ok (oneTree, c') ∧ Stands I c' (t :: ts) := by
    intro t ts c kind stands
    refine binary_one _ (List.forall_mem_singleton.mpr ?_) stands
    rcases kind with rfl | rfl <;> rfl
  have next : ∃ t ts, addedTokens n = t :: ts ∧ (t = .finish ∨ t = .symbol .plus) := by
    cases n with
    | zero => exact ⟨_, _, rfl, .inl rfl⟩
    | succ n => exact ⟨_, _, rfl, .inr rfl⟩
  obtain ⟨t, ts, shape, kind⟩ := next
  rw [shape] at stands
  obtain ⟨c₁, read, stands₁⟩ := one kind stands
  rw [← shape] at stands₁
  obtain ⟨c₂, added, stands₂⟩ := chain_added one n oneTree (addedTokens_length n) stands₁
  refine ⟨c₂, ?_, stands₂⟩
  have sum : binary (unary ctx inner levels)
      [[(.plus, .add), (.minus, .sub)], [(.star, .mul), (.slash, .div), (.percent, .rem)]] c =
        .ok (addedOnes n oneTree, c₂) := by
    rw [binary, bind_of_ok read, bind_of_ok stands₁.remaining]
    exact added
  exact binary_looser sum stands₂ (precedence.take 4)

/-- A statement that begins with a numeral is an expression. -/
theorem statement_sum (ctx : Context) (inner : Inner) (levels n : Nat)
    (stands : Stands I c (.int 1 :: addedTokens n)) :
    ∃ c', statement ctx inner (levels + 1) c = .ok (addedOnes n oneTree, c') ∧
      Stands I c' [.finish] := by
  obtain ⟨c', read, stands'⟩ := expression_sum ctx inner levels n stands
  refine ⟨c', ?_, stands'⟩
  have current : (get : Parser Cursor) c = .ok (c, c) := rfl
  rw [statement, bind_of_ok current, bind_of_ok stands.peek]
  exact read

/-- Nothing is passed over in front of a token that separates no statements. -/
theorem separators_none {t : Token} {ts : List Token} (stands : Stands I c (t :: ts))
    (plain : ∀ place, separates ⟨t, place⟩ = false) :
    (modify fun c => { c with rest := c.rest.dropWhile separates } : Parser PUnit) c = .ok
    ((), c) := by
  obtain ⟨first, rest, shape, shown, -⟩ := List.map_eq_cons_iff.mp stands.shows
  change Except.ok ((), { c with rest := c.rest.dropWhile separates }) = _
  have kept : separates first = false := by
    have := plain first.place
    rw [← shown] at this
    exact this
  rw [shape, List.dropWhile_cons, kept]
  simp only [Bool.false_eq_true, if_false, ← shape]

/-- What closes the statements that stand in a function, or a whole script. -/
theorem not_separates_of_isAt {closing : Closing} {close : Token}
    (closes : closing.isAt close = true) (place : Text.Position) :
    separates ⟨close, place⟩ = false := by
  unfold Closing.isAt at closes
  split at closes
  · rfl
  · rfl
  · exact nomatch closes

/-- No statements. -/
theorem statementsWith_none {statement : Parser Tree} {closing : Closing} {close : Token}
    (closes : closing.isAt close = true) (allowance : Nat) {more : List Token}
    (stands : Stands I c (close :: more)) :
    statementsWith statement closing allowance c = .ok ([], c) := by
  cases allowance with
  | zero => rfl
  | succ allowance =>
      obtain ⟨last, found, shown⟩ := stands.here
      rw [statementsWith, bind_of_ok (separators_none stands (not_separates_of_isAt closes)),
        bind_of_ok found, shown, closes, Bool.true_or]
      rfl

/-- One statement. -/
theorem statementsWith_one {statement : Parser Tree} {t : Token} {ts : List Token}
    (plain : ∀ place, separates ⟨t, place⟩ = false) {closing : Closing}
    (goesOn : closing.isAt t = false ∧ Closing.finish.isAt t = false) {close : Token}
    (closes : closing.isAt close = true) {more : List Token} (stands : Stands I c (t :: ts))
    {tree : Tree} {c' : Cursor} (read : statement c = .ok (tree, c'))
    (stands' : Stands I c' (close :: more)) (allowance : Nat) :
    statementsWith statement closing (allowance + 1) c = .ok ([tree], c') := by
  obtain ⟨first, found, shown⟩ := stands.here
  obtain ⟨behind, foundBehind, shownBehind⟩ := stands'.here
  rw [statementsWith, bind_of_ok (separators_none stands plain), bind_of_ok found, shown, goesOn.1,
    goesOn.2]
  simp only [Bool.or_self, Bool.false_eq_true, if_false]
  rw [bind_of_ok read, bind_of_ok foundBehind, shownBehind, closes, Bool.or_true]
  simp only [if_true]
  rw [bind_of_ok (statementsWith_none closes allowance stands')]
  rfl

theorem statementsWith_sum (ctx : Context) (inner : Inner) (levels n allowance : Nat)
    (stands : Stands I c (.int 1 :: addedTokens n)) :
    ∃ c', statementsWith (statement ctx inner (levels + 1)) .finish (allowance + 1) c =
      .ok ([addedOnes n oneTree], c') ∧ Stands I c' [.finish] := by
  obtain ⟨c', read, stands'⟩ := statement_sum ctx inner levels n stands
  exact ⟨c', statementsWith_one (fun _ => rfl) ⟨rfl, rfl⟩ rfl stands read stands' allowance,
    stands'⟩

end Rho

/-- A sum of any number of operands is a script of the language of statements. -/
theorem parse_sum (ctx : Context) (n serial : Nat) :
    parse .rho ctx (sumText n) serial = .ok (.sequence [addedOnes n oneTree], serial) := by
  obtain ⟨placed, cut, shown⟩ := lexes_sum n .start
  have tokenized : tokenize (sumText n) = .ok placed := cut
  have stands : Stands (Pi.Exactly [[]] serial) ⟨placed, 0, [[]], serial⟩
      (.int 1 :: addedTokens n) := ⟨rfl, shown, rfl, rfl⟩
  have room : placed.length = (placed.length - 1) + 1 := by
    have length := congrArg List.length shown
    rw [List.length_map, List.length_cons] at length
    omega
  obtain ⟨c, read, left⟩ := Rho.statementsWith_sum ctx (Rho.tower ctx placed.length) 255 n
    (placed.length - 1) stands
  rw [← room] at read
  have statements : (Rho.tower ctx (placed.length + 1)).statements nestingLimit .finish
      ⟨placed, 0, [[]], serial⟩ = .ok ([addedOnes n oneTree], c) := read
  rw [parse, tokenized]
  change Rho.parse ctx placed serial = _
  rw [Rho.parse]
  dsimp only
  rw [statements]
  have unmoved : c.serial = serial := left.keeps.2
  rw [← unmoved]
  rfl

end Script

theorem isTerm_addedOnes {t : Tree} (n : Nat) (isTerm : t.IsTerm) : (addedOnes n t).IsTerm := by
  induction n generalizing t with
  | zero => exact isTerm
  | succ n ih =>
      refine ih ?_
      rw [Tree.op, Tree.IsTerm]
      have one : oneTree.IsTerm := by
        rw [oneTree, Tree.IsTerm, Value.IsConstant]
        decide
      refine ⟨rfl, ?_⟩
      rw [Tree.AreTerms, Tree.AreTerms, Tree.AreTerms]
      exact ⟨isTerm, one, trivial⟩

theorem isFloatless_sum (n : Nat) : Script.IsFloatless (sumText n) := by
  obtain ⟨placed, cut, shown⟩ := Script.lexes_sum n .start
  have ints : ∀ n, ∀ t ∈ addedTokens n, t.isFloat = false := by
    intro n
    induction n with
    | zero => exact List.forall_mem_singleton.mpr rfl
    | succ n ih => exact List.forall_mem_cons.mpr ⟨rfl, List.forall_mem_cons.mpr ⟨rfl, ih⟩⟩
  have all : ∀ t ∈ Token.int 1 :: addedTokens n, t.isFloat = false :=
    List.forall_mem_cons.mpr ⟨rfl, ints n⟩
  intro others same t mem
  obtain rfl : placed = others := Except.ok.inj (cut.symm.trans same)
  exact all t.token (shown ▸ List.mem_map_of_mem mem)

/-- A sum of more operands than terms may nest cannot be sent in the compact language: no text of it
is read as the tree of the sum. -/
theorem parse_pi_ne_sum {ctx : Script.Context} (bare : ∀ name, ctx.registry.contains name = false)
    {n : Nat} (deep : nestingLimit ≤ n) (source : String) (serial next : Nat) :
    Script.parse .pi ctx source serial ≠ .ok (.sequence [addedOnes n oneTree], next) := by
  intro parsed
  have one : oneTree.nesting = 1 ∧ oneTree.IsTerm := by
    rw [oneTree, Tree.IsTerm, Value.IsConstant]
    decide
  have isScript : (Tree.sequence [addedOnes n oneTree]).IsScript := by
    rw [Tree.sequence, Tree.IsScript, Tree.AreTerms, Tree.AreTerms]
    exact ⟨isTerm_addedOnes n one.2, trivial⟩
  have shallow := (Script.parse_pi_fits bare parsed).2 isScript
  rw [Tree.sequence, Tree.nesting, Tree.deepest, Tree.deepest, nesting_addedOnes n (by omega)]
    at shallow
  omega

/-- A sum of 257 operands and a binding of `true` are scripts of the language of statements that are
not read again from their written forms. -/
theorem parse_rho_render_unread :
    (Script.IsFloatless (sumText 256) ∧
      ∃ t, Script.parse .rho ⟨fun _ => false, .empty⟩ (sumText 256) 0 = .ok (t, 0) ∧
        ∀ next, Script.parse .pi ⟨fun _ => false, .empty⟩ ((Encoder.plain .empty).render t) 0 ≠
          .ok (t, next)) ∧
    ∃ t, Script.parse .rho ⟨fun _ => false, .empty⟩ "true = 1" 0 = .ok (t, 0) ∧
      ∀ next, Script.parse .pi ⟨fun _ => false, .empty⟩ ((Encoder.plain .empty).render t) 0 ≠
        .ok (t, next) := by
  have bare : ∀ name, Registry.empty.contains name = false := fun _ => rfl
  refine ⟨⟨isFloatless_sum 256, _, Script.parse_sum _ 256 0, ?_⟩,
    .sequence [.bind "true" oneTree], by cbv, ?_⟩
  · exact parse_pi_ne_sum bare (Nat.le_refl nestingLimit) _ 0
  · intro next parsed
    exact absurd (Script.parse_pi_fits bare parsed).1 (by decide)

end PeerScript
