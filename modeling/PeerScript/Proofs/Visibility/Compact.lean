import PeerScript.Proofs.Visibility

/-!
# The compact language in another context

What the readers of the compact language read in one context they read in any other one, or they
stop at the first name that is missing there.
-/

set_option autoImplicit false

namespace PeerScript.Script.Pi

open Script.Parser
open Text (Position)

variable {placed : List Placed} {ctx₀ ctx : Context} {names : List (List String)}
  {term₀ term : Parser Tree}

theorem members_checks (place : Position) : ∀ allowance,
    Looks placed (members place allowance) names fun _ => True
  | 0 => .pure ⟨rfl, rfl, trivial⟩
  | allowance + 1 => by
      rw [members]
      refine (Checks.check .dot).andThen fun dotted _ => ?_
      split
      · refine Checks.advance.andThen fun _ _ => Checks.advance.andThen fun t _ => ?_
        split
        · exact (members_checks place allowance).andThen fun _ _ => .pure ⟨rfl, rfl, trivial⟩
        · exact .of_fails (fails_complainAt _ _)
      · exact .pure ⟨rfl, rfl, trivial⟩

theorem parameters_checks (opening : Position) : ∀ (allowance : Nat) (names : List (List String)),
    Checks placed (parameters opening allowance) (parameters opening allowance) names
      fun params names' missed => names' = names.modifyHead (params.reverse ++ ·) ∧ missed = []
  | 0, _ => .of_fails (.after (fun _ => fails_complainAt _ _) _)
  | allowance + 1, names => by
      rw [parameters]
      refine Checks.advance.andThen fun t _ => ?_
      split
      · exact .pure ⟨(modifyHead_nil_append names).symm, rfl⟩
      · rename_i name _
        refine (Checks.define name).bind fun _ names₁ missed known => ?_
        obtain ⟨shown, nothing⟩ := known
        subst shown nothing
        refine (parameters_checks opening allowance _).bind fun rest names₂ missed known => ?_
        obtain ⟨shown, nothing⟩ := known
        subst nothing
        refine .pure ⟨?_, rfl⟩
        rw [shown, List.reverse_cons]
        exact modifyHead_append [name] rest.reverse names
      · exact .of_fails (fails_complainAt _ _)

section Terms

variable (terms : AreTerms placed ctx term₀ term)

include terms

theorem termsUntil_checks (close : Symbol) (opening : Position) (delimiter : String) :
    ∀ (allowance : Nat) (names : List (List String)), names ≠ [] →
      Checks placed (termsUntil term₀ close opening delimiter allowance)
        (termsUntil term close opening delimiter allowance) names (Tree.AllMiss ctx names)
  | 0, _, _ => .of_fails (fails_complainAt _ _)
  | allowance + 1, names, opened => by
      rw [termsUntil, termsUntil]
      refine (Checks.check close).andThen fun closed _ => ?_
      split
      · exact Checks.advance.andThen fun _ _ => .pure Tree.allMiss_nil
      refine Checks.peek.andThen fun t _ => ?_
      split
      · exact .of_fails (fails_complainAt _ _)
      refine (terms names opened).bind fun first names₁ missed isFirst => ?_
      refine (termsUntil_checks close opening delimiter allowance names₁
        (isFirst.opened opened)).bind fun rest names₂ more isRest => ?_
      exact .pure (by simpa using isFirst.cons isRest)

theorem argsAfter_checks : ∀ (allowance : Nat) (names : List (List String)), names ≠ [] →
    Checks placed (argsAfter term₀ allowance) (argsAfter term allowance) names
      (Tree.AllMiss ctx names)
  | 0, _, _ => .of_fails (.after (fun _ => fails_complain _) _)
  | allowance + 1, names, opened => by
      rw [argsAfter, argsAfter]
      refine (terms names opened).bind fun first names₁ missed isFirst =>
        Checks.peek.andThen fun t _ => ?_
      split
      · refine Checks.advance.andThen fun _ _ => (argsAfter_checks allowance names₁
          (isFirst.opened opened)).bind fun rest names₂ more isRest => ?_
        exact .pure (by simpa using isFirst.cons isRest)
      · exact Checks.advance.andThen fun _ _ => .pure (isFirst.cons Tree.allMiss_nil)
      · exact .of_fails (fails_complain _)

theorem args_checks (opened : names ≠ []) :
    Checks placed (args term₀) (args term) names (Tree.AllMiss ctx names) := by
  rw [args, args]
  refine (Checks.expect .lParen _).andThen fun _ _ => (Checks.check .rParen).andThen
    fun closed _ => ?_
  split
  · exact Checks.advance.andThen fun _ _ => .pure Tree.allMiss_nil
  · exact Checks.remaining.andThen fun room _ => argsAfter_checks terms room names opened

theorem application_checks (mark : Symbol) (place : Position) (opened : names ≠ []) :
    Checks placed (application term₀ mark place) (application term mark place) names
      (Tree.Misses ctx names) := by
  rw [application, application]
  refine (Checks.check .lParen).andThen fun applied _ => ?_
  split
  · refine (args_checks terms opened).bind fun operands names' missed isArgs => ?_
    split
    · exact .pure (by simpa using isArgs.op _)
    · exact .of_fails (fails_complainAt _ _)
  · exact .of_fails (fails_complainAt _ _)

theorem function_checks (opening : Position) (opened : names ≠ []) :
    Checks placed (function term₀ opening) (function term opening) names
      (Tree.Misses ctx names) := by
  rw [function, function]
  have goesOn : ∀ params : List String, Checks placed
      (do
        let statements ← termsUntil term₀ .rBrace opening "\x7b" (← remaining)
        return .literal (.closure params (.sequence statements) none) : Parser Tree)
      (do
        let statements ← termsUntil term .rBrace opening "\x7b" (← remaining)
        return .literal (.closure params (.sequence statements) none) : Parser Tree)
        (params.reverse :: names)
      fun t names' missed => (∃ inner, names' = inner :: names) ∧
        t.Misses ctx names names missed := by
    refine fun params => Checks.remaining.andThen fun room _ => ?_
    refine (termsUntil_checks terms .rBrace opening _ room _ (List.cons_ne_nil _ _)).bind
      fun statements names' missed isBody => ?_
    exact .pure (by simpa using isBody.closure)
  have inside : ∀ names' (t : Tree) missed,
      (names' = names ∧ t.Misses ctx names names missed) → t.Misses ctx names names' missed :=
    fun names' t missed known => known.1 ▸ known.2
  refine (Checks.body opened _ ((Checks.check .pipe).andThen fun bar _ => ?_)).mono
    fun t names' missed => inside names' t missed
  split
  · refine Checks.advance.andThen fun _ _ => Checks.remaining.andThen fun room _ => ?_
    refine (parameters_checks opening room _).bind fun params names' missed known => ?_
    obtain ⟨shown, nothing⟩ := known
    subst nothing
    rw [shown, List.modifyHead_cons, List.append_nil]
    exact goesOn params
  · exact goesOn []

variable (bare₀ : ∀ name, ctx₀.registry.contains name = false)
  (bare : ∀ name, ctx.registry.contains name = false)

include bare₀ bare

theorem named_checks {first : String} {place : Position} (mem : ⟨.name first, place⟩ ∈ placed)
    (opened : names ≠ []) :
    Checks placed (named ctx₀ term₀ first place) (named ctx term first place) names
      (Tree.Misses ctx names) := by
  rw [named, named]
  refine Checks.remaining.andThen fun room _ => (members_checks place room).andThen fun others _ =>
    Checks.peek.andThen fun t _ => ?_
  split
  · refine Checks.advance.andThen fun _ _ => ?_
    refine (Checks.define _).bind fun _ names₁ missed known => ?_
    obtain ⟨shown, nothing⟩ := known
    subst shown nothing
    refine (terms _ (by simpa using opened)).bind fun value names₂ missed isValue => ?_
    exact .pure (by simpa using isValue.bind)
  · refine (args_checks terms opened).bind fun operands names' missed isArgs => ?_
    refine (Checks.call bare₀ bare operands mem).mono fun t names'' more known => ?_
    obtain ⟨same, isCall, looked⟩ := known
    subst same isCall looked
    exact isArgs.call (.invoke _) rfl
  · refine (Checks.reference mem).mono fun t names' missed known => ?_
    obtain ⟨same, isReference, looked⟩ := known
    subst same isReference looked
    exact Tree.misses_reference _

theorem termWith_checks (opened : names ≠ []) :
    Checks placed (termWith ctx₀ term₀) (termWith ctx term) names (Tree.Misses ctx names) := by
  rw [termWith, termWith]
  refine Checks.advance.andThen fun first mem => ?_
  have constant : ∀ {v : Value}, v.missing ctx names = [] →
      Checks placed (pure (.literal v)) (pure (.literal v)) names (Tree.Misses ctx names) :=
    fun nothing => .pure (Tree.misses_literal nothing)
  split <;> rename_i shape
  · exact constant (by rw [Value.missing] <;> simp)
  · exact constant (by rw [Value.missing] <;> simp)
  · exact constant (by rw [Value.missing] <;> simp)
  · exact constant (by rw [Value.missing] <;> simp)
  · exact constant (by rw [Value.missing] <;> simp)
  · have isToken := mem _ shape
    rw [← show (⟨first.token, first.place⟩ : Placed) = first from rfl, shape] at isToken
    exact named_checks terms bare₀ bare isToken opened
  · refine Checks.peek.andThen fun t _ => ?_
    split
    · exact Checks.advance.andThen fun _ _ => constant (by rw [Value.missing] <;> simp)
    · exact Checks.advance.andThen fun _ _ => constant (by rw [Value.missing] <;> simp)
    · exact application_checks terms .minus _ opened
  · refine Checks.remaining.andThen fun room _ => ?_
    refine (termsUntil_checks terms .rBracket _ _ room names opened).bind
      fun items names' missed isItems => ?_
    exact .pure (by simpa using isItems.list)
  · exact function_checks terms _ opened
  · split
    · exact application_checks terms _ _ opened
    · exact .of_fails (fails_complainAt _ _)
  · exact .of_fails (fails_complainAt _ _)

end Terms

section Levels

variable (bare₀ : ∀ name, ctx₀.registry.contains name = false)
  (bare : ∀ name, ctx.registry.contains name = false)

include bare₀ bare

theorem term_checks : ∀ levels, AreTerms placed ctx (Pi.term ctx₀ levels) (Pi.term ctx levels)
  | 0 => fun _ _ => .of_fails (.after (fun _ => fails_complainAt _ _) _)
  | levels + 1 => fun _ opened => termWith_checks (term_checks levels) bare₀ bare opened

end Levels

theorem script_checks (terms : AreTerms placed ctx term₀ term) :
    ∀ (allowance : Nat) (names : List (List String)),
    names ≠ [] → Checks placed (script term₀ allowance) (script term allowance) names
      (Tree.AllMiss ctx names)
  | 0, _, _ => .pure Tree.allMiss_nil
  | allowance + 1, names, opened => by
      rw [script, script]
      refine Checks.peek.andThen fun t _ => ?_
      split
      · exact .pure Tree.allMiss_nil
      refine (terms names opened).bind fun first names₁ missed isFirst => ?_
      refine (script_checks terms allowance names₁
        (isFirst.opened opened)).bind fun rest names₂ more isRest => ?_
      exact .pure (by simpa using isFirst.cons isRest)

end PeerScript.Script.Pi
