import Mathlib
import PeerScript.Proofs.Moves
import PeerScript.Proofs.Steps.Ending
import PeerScript.Proofs.Translation.Terms

/-!
# Literals that are folded

A list of literals is itself a literal of the script, and so is an instance of a registered type all
of whose fields are literals.  `fold_agrees_iff` compares what is folded with the calls that it
stands for: they do the same as long as no item is a function.

A function among the items makes a difference.  Where it is run as a literal of its own it gets the
scope as its home, and the session keeps the scope for it; as an item of a literal it has no home,
and nothing is kept.
-/

set_option autoImplicit false

namespace PeerScript

open Script (Context Cursor)

/-! ## Literals one by one -/

/-- Whether a value is a function. -/
def Value.isFunction : Value → Bool
  | .closure .. => true
  | _ => false

/-- What the literal of a value pushes when it is run in a scope. -/
def Value.madeIn (scope : FrameId) : Value → Value
  | .closure params body _ => .closure params body (some scope)
  | v => v

theorem Value.madeIn_of_not_isFunction {v : Value} (plain : v.isFunction = false)
    (scope : FrameId) :
    v.madeIn scope = v := by
  cases v <;> first | rfl | exact nomatch plain

theorem Value.madeIn_ne {v : Value} (function : v.isFunction = true) (homeless : v.homes = [])
    (scope : FrameId) : v.madeIn scope ≠ v := by
  cases v with
  | closure ps b f =>
      intro same
      rw [← same] at homeless
      exact nomatch homeless
  | _ => exact nomatch function

theorem Value.ne_closure {v : Value} (plain : v.isFunction = false) (ps : List String) (b : Tree)
    (f : Option FrameId) : v ≠ .closure ps b f := by
  rintro rfl
  exact nomatch plain

section Runs

variable {σ : Type} (host : Host σ) (inside : Option (Inside σ)) (scope : FrameId)

/-- Literals that are run one after another push their values, functions with the scope as their
home. -/
theorem evalTrees_madeIn (vs : List Value) : ∀ m : Machine σ, ∃ m' : Machine σ,
    evalTrees host inside (vs.map .literal) scope m = .ok () m' ∧
      m'.session.stack = (vs.map (Value.madeIn scope)).reverse ++ m.session.stack := by
  induction vs with
  | nil => exact fun m => ⟨m, rfl, rfl⟩
  | cons v vs ih =>
      intro m
      have first : ∃ m₁ : Machine σ, evalTree host inside (.literal v) scope m = .ok () m₁ ∧
          m₁.session.stack = v.madeIn scope :: m.session.stack := by
        cases function : v.isFunction with
        | true =>
            cases v with
            | closure ps b f =>
                refine ⟨(m.capture scope).push (.closure ps b (some scope)), ?_, ?_⟩
                · rw [evalTree]
                  rfl
                · exact congrArg _ (m.stack_capture scope)
            | _ => exact nomatch function
        | false =>
            refine ⟨m.push v, evalTree_literal host inside (Value.ne_closure function) scope, ?_⟩
            rw [Value.madeIn_of_not_isFunction function]
            rfl
      obtain ⟨m₁, pushed, stack⟩ := first
      obtain ⟨m', ran, stack'⟩ := ih m₁
      refine ⟨m', ?_, ?_⟩
      · rw [List.map_cons, evalTrees_cons_of_ok host inside pushed, ran]
      · rw [stack', stack, List.map_cons, List.reverse_cons, List.append_assoc]
        rfl

theorem values_literals (vs : List Value) : (vs.map Tree.literal).mapM Tree.value? = some vs := by
  induction vs with
  | nil => rfl
  | cons v vs ih => rw [List.map_cons, List.mapM_cons, ih]; rfl

/-- A literal list is pushed as it is. -/
theorem evalTree_list (vs : List Value) (m : Machine σ) :
    evalTree host inside (Script.Parser.list (vs.map .literal)) scope m =
      .ok () (m.push (.list vs)) := by
  rw [Script.Parser.list, values_literals]
  exact evalTree_literal host inside (v := .list vs) (fun _ _ _ same => nomatch same) scope

/-- A list that is run item by item has the functions among its items made in the scope. -/
theorem evalTree_listed (vs : List Value) (m : Machine σ) : ∃ m' : Machine σ,
    evalTree host inside (.call .list (vs.map .literal)) scope m =
      .ok () (m'.push (.list (vs.map (Value.madeIn scope)))) ∧
      m'.session.stack = m.session.stack := by
  obtain ⟨m', ran, stack⟩ := evalTrees_madeIn host inside scope vs m
  refine ⟨m'.withStack m.session.stack, ?_, rfl⟩
  have split : Run.splitOff m.session.stack.length m' =
      .ok (vs.map (Value.madeIn scope)) (m'.withStack m.session.stack) := by
    rw [Run.splitOff_of_le (by simp [stack]), stack]
    simp
  rw [evalTree_applied host inside (by decide), Run.bind_of_ok Run.height_eq, Run.bind_of_ok ran,
    Run.bind_of_ok split]
  rfl

/-- Where no item is a function, the call gets the items as they are. -/
theorem evalTree_plain_call (head : Head) (single : head ≠ .sequence) {vs : List Value}
    (plain : ∀ v ∈ vs, v.isFunction = false) (m : Machine σ) :
    evalTree host inside (.call head (vs.map .literal)) scope m =
      dispatch host inside head vs scope m :=
  evalTree_call host inside single
    (evalTrees_literals host inside vs (fun v mem => Value.ne_closure (plain v mem)) scope m) rfl

end Runs

/-! ## Folded and unfolded -/

/-- A constructor whose fields are literals is decoded where it is read. -/
theorem call_literals_eq {ctx : Context} {name : String} {c : Cursor}
    (types : ctx.registry.contains name = true) (hidden : ¬ ctx.Sees c.names name) (vs : List Value)
    (place : Text.Position) :
    Script.Parser.call ctx ⟨[name]⟩ (vs.map .literal) place c =
      match ctx.registry.decode name vs c.serial with
      | .ok v => .ok (.literal v, { c with serial := c.serial + 1 })
      | .error (.undecodable typeName reason) =>
        .error (.malformed place (.undecodable typeName reason))
      | .error fault => .error fault := by
  have unseen : (c.names.any (·.contains name) || ctx.isBound name) = false := by
    rwa [Context.Sees, Bool.not_eq_true] at hidden
  have seen : Script.Parser.sees ctx name c = .ok (false, c) := by
    rw [← unseen]
    rfl
  have single : Path.isName ⟨[name]⟩ = true := rfl
  have root : Path.root ⟨[name]⟩ = name := rfl
  rw [Script.Parser.call, root, Script.Parser.bind_of_ok seen, single, types, values_literals]
  rw [if_pos (by rfl)]
  dsimp only
  have current : (get : Script.Parser Cursor) c = .ok (c, c) := rfl
  rw [Script.Parser.bind_of_ok current]
  cases ctx.registry.decode name vs c.serial with
  | ok v => rfl
  | error fault => cases fault <;> rfl

/-- The fields of a constructor make an instance, or they are refused whatever its number. -/
theorem call_literals {ctx : Context} {name : String} {c : Cursor}
    (types : ctx.registry.contains name = true) (hidden : ¬ ctx.Sees c.names name) (vs : List Value)
    (place : Text.Position) :
    (∃ kind fields, Script.Parser.call ctx ⟨[name]⟩ (vs.map .literal) place c =
        .ok (.literal (.handle kind c.serial fields), { c with serial := c.serial + 1 }) ∧
      ∀ serial, ctx.registry.decode name vs serial = .ok (.handle kind serial fields)) ∨
    (∃ fault fault', Script.Parser.call ctx ⟨[name]⟩ (vs.map .literal) place c = .error fault ∧
      ∀ serial, ctx.registry.decode name vs serial = .error fault') := by
  have read := call_literals_eq types hidden vs place
  obtain ⟨type, found⟩ := Option.isSome_iff_exists.mp types
  cases made : type.decode vs with
  | ok fields =>
      have decoded : ∀ serial, ctx.registry.decode name vs serial =
          .ok (.handle type.kind serial fields) := by
        intro serial
        rw [Registry.decode, found]
        simp only [made]
      rw [decoded] at read
      exact .inl ⟨type.kind, fields, read, decoded⟩
  | error reason =>
      have decoded : ∀ serial, ctx.registry.decode name vs serial =
          .error (.undecodable name reason) := by
        intro serial
        rw [Registry.decode, found]
        simp only [made]
      rw [decoded] at read
      exact .inr ⟨_, _, read, decoded⟩

variable {σ : Type}

/-- A list that is folded does what the list does whose items are run one by one exactly if no item
is a function; a function that is an item is made in the scope only if the items are run.

If no field is a function, a constructor is refused exactly where its call fails, and what it is
folded to does what the call does, the serial number of the instance apart. -/
theorem fold_agrees_iff (host : Host σ) (inside : Option (Inside σ)) (scope : FrameId)
    (m : Machine σ) (vs : List Value) (homeless : ∀ v ∈ vs, v.homes = []) :
    (evalTree host inside (Script.Parser.list (vs.map .literal)) scope m =
        evalTree host inside (.call .list (vs.map .literal)) scope m ↔
        ∀ v ∈ vs, v.isFunction = false) ∧
    ((∀ v ∈ vs, v.isFunction = false) →
      ∀ (ctx : Context) (name : String) (place : Text.Position) (c : Cursor),
      ctx.registry = m.session.registry → ctx.registry.contains name = true →
      ¬ ctx.Sees c.names name → match Script.Parser.call ctx ⟨[name]⟩ (vs.map .literal) place c with
      | .error _ => ∃ fault,
          evalTree host inside (.call (.construct name) (vs.map .literal)) scope m =
          .error (.failed fault) m
      | .ok (t, _) => ∃ kind fields,
          evalTree host inside t scope m = .ok () (m.push (.handle kind c.serial fields)) ∧
          evalTree host inside (.call (.construct name) (vs.map .literal)) scope m =
            .ok () ((m.numbered (m.common.serial + 1)).push
              (.handle kind m.common.serial fields))) := by
  constructor
  · rw [evalTree_list]
    constructor
    · intro same v mem
      obtain ⟨m', ran, stack⟩ := evalTree_listed host inside scope vs m
      rw [ran] at same
      have pushed : m.push (.list vs) = m'.push (.list (vs.map (Value.madeIn scope))) :=
        EStateM.Result.ok.inj same |>.2
      have top := congrArg (fun m => m.session.stack.head?) pushed
      have items : vs.map (Value.madeIn scope) = vs := by
        simpa [Machine.push] using top.symm
      have kept : v.madeIn scope = v :=
        List.map_eq_map_iff.mp (items.trans (List.map_id vs).symm) v mem
      by_contra function
      exact Value.madeIn_ne (Bool.not_eq_false _ ▸ function) (homeless v mem) scope kept
    · intro plain
      exact (evalTree_plain_call host inside scope .list Head.noConfusion plain m).symm
  · intro plain ctx name place c same types hidden
    have run := evalTree_plain_call host inside scope (.construct name) Head.noConfusion plain m
    rw [run]
    rcases call_literals types hidden vs place with ⟨kind, fields, read, decoded⟩
        | ⟨fault, fault', read, decoded⟩
    · rw [read]
      refine ⟨kind, fields, evalTree_literal host inside (v := .handle kind c.serial fields)
        (fun _ _ _ => Value.noConfusion) scope, ?_⟩
      rw [dispatch, Run.bind_of_ok Run.get_eq, ← same, decoded]
      rfl
    · rw [read]
      refine ⟨fault', ?_⟩
      rw [dispatch, Run.bind_of_ok Run.get_eq, ← same, decoded]
      rfl

/-- The components of a point. -/
def components : List Value := [.int 1, .int 2, .int 3]

/-- A machine that has not run anything. -/
def idleMachine : Machine Unit := ⟨.new .standard 0, .new ()⟩

/-- Three numbers are folded to a list and to a point. -/
theorem fold_agrees_components :
    (∀ v ∈ components, v.homes = []) ∧ (∀ v ∈ components, v.isFunction = false) ∧
    evalTree doneHost none (Script.Parser.list (components.map .literal)) 0 idleMachine =
      evalTree doneHost none (.call .list (components.map .literal)) 0 idleMachine ∧
    ∃ t c kind fields,
      Script.Parser.call ⟨fun _ => false, .standard⟩ ⟨["Vector3"]⟩ (components.map .literal) .start
        ⟨[], 0, [[]], 5⟩ = .ok (t, c) ∧
      evalTree doneHost none t 0 idleMachine = .ok () (idleMachine.push (.handle kind 5 fields)) ∧
      evalTree doneHost none (.call (.construct "Vector3") (components.map .literal))
        0 idleMachine = .ok () ((idleMachine.numbered 1).push (.handle kind 0 fields)) := by
  have homeless : ∀ v ∈ components, v.homes = [] := by decide
  have plain : ∀ v ∈ components, v.isFunction = false := by decide
  obtain ⟨list, construct⟩ := fold_agrees_iff doneHost none 0 idleMachine components homeless
  have instances :=
    construct plain ⟨fun _ => false, .standard⟩ "Vector3" .start ⟨[], 0, [[]], 5⟩ rfl rfl
    (by rw [Context.Sees]; decide)
  refine ⟨homeless, plain, list.mpr plain, ?_⟩
  split at instances
  · rename_i fault refused
    cases refused
  · rename_i t c read
    obtain ⟨kind, fields, folded, run⟩ := instances
    exact ⟨t, c, kind, fields, read, folded, run⟩

/-- A function that is the only item of a list. -/
def constantly (home : Option FrameId) : Value := .closure [] (.sequence [.literal (.int 1)]) home

set_option maxRecDepth 20000 in
/-- The function in a list of literals has no home and nothing is kept for it, unlike that in a list
whose items are run. -/
theorem fold_disagrees :
    Script.parse .pi ⟨fun _ => false, .standard⟩ "[\x7b1\x7d]" 0 =
      .ok (.sequence [Script.Parser.list [.literal (constantly none)]], 0) ∧
    ∃ m m' : Machine Unit,
      evalTree doneHost none (Script.Parser.list [.literal (constantly none)]) 0 idleMachine =
        .ok () m ∧
      evalTree doneHost none (.call .list [.literal (constantly none)]) 0 idleMachine = .ok () m' ∧
      m.session.stack = [.list [constantly none]] ∧ m.session.captured = [] ∧
      m'.session.stack = [.list [constantly (some 0)]] ∧ m'.session.captured = [0] := by
  have read : Script.parse .pi ⟨fun _ => false, .standard⟩ "[\x7b1\x7d]" 0 =
      .ok (.sequence [Script.Parser.list [.literal (constantly none)]], 0) := by
    cbv
  have folded := evalTree_list doneHost none 0 [constantly none] idleMachine
  have run : evalTree doneHost none (.call .list [.literal (constantly none)]) 0 idleMachine =
      .ok () ((idleMachine.capture 0).push (.list [constantly (some 0)])) := by
    rw [evalTree_applied doneHost none (by decide), Run.bind_of_ok Run.height_eq, evalTrees,
      constantly, evalTree]
    rfl
  exact ⟨read, _, _, folded, run, rfl, rfl, rfl, rfl⟩

end PeerScript
