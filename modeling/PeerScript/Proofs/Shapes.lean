import Mathlib
import PeerScript.Proofs.Translation.Expressions

/-!
# The shape of translated trees

Not every tree is the tree of a script.  A script is a sequence, and so is the body of each function
in it, and nothing else is.  Operators and bindings have as many arguments as they take, lists and
instances all of whose arguments are literals are literals themselves, and no literal is a function
that has a home already.  `shape_of_parse` says so of all trees that both languages are translated
to, at every depth.

No numeral is the least integer, so all negations are exact that the readers carry out when they
read a minus in front of a literal; also of those scripts that are refused later.
-/

set_option autoImplicit false

namespace PeerScript

open Script (Context Language Token Cursor Placed)

/-! ## Trees that can be translated -/

/-- Whether a head may stand over the given arguments. -/
def Head.Suits (r : Registry) (args : List Tree) : Head → Prop
  | .sequence => False
  | .bind _ => args.length = 1
  | .op operator => args.length = operator.arity
  | .invoke path => path.segments ≠ []
  | .construct typeName => r.contains typeName = true ∧ ∃ a ∈ args, a.isLiteral = false
  | .list => ∃ a ∈ args, a.isLiteral = false

mutual

/-- Whether a value can be a literal of a script.  What is inside of an instance is made by its
type, and is no part of the script. -/
def Value.IsShaped (r : Registry) : Value → Prop
  | .int i => i ≠ Int64.minValue
  | .list items => Value.AreShaped r items
  | .closure _ body home => home = none ∧ body.IsBody r
  | _ => True

/-- Whether each of the values can be a literal of a script. -/
def Value.AreShaped (r : Registry) : List Value → Prop
  | [] => True
  | v :: rest => v.IsShaped r ∧ Value.AreShaped r rest

/-- Whether a tree can be a statement of a script or a part of one. -/
def Tree.IsNode (r : Registry) : Tree → Prop
  | .literal v => v.IsShaped r
  | .reference path => path.segments ≠ []
  | .call head args => head.Suits r args ∧ Tree.AreNodes r args

/-- Whether each of the trees can be a part of a script. -/
def Tree.AreNodes (r : Registry) : List Tree → Prop
  | [] => True
  | t :: rest => t.IsNode r ∧ Tree.AreNodes r rest

/-- Whether a tree can be a script or the body of a function. -/
def Tree.IsBody (r : Registry) : Tree → Prop
  | .call .sequence statements => Tree.AreNodes r statements
  | _ => False

end

namespace Tree

variable {r : Registry} {t u : Tree} {ts : List Tree}

theorem areNodes_iff : AreNodes r ts ↔ ∀ t ∈ ts, t.IsNode r := by
  induction ts with
  | nil => rw [AreNodes]; exact ⟨fun _ => nofun, fun _ => trivial⟩
  | cons t ts ih => rw [AreNodes, ih, List.forall_mem_cons]

theorem areNodes_literals (vs : List Value) :
    AreNodes r (vs.map .literal) ↔ Value.AreShaped r vs := by
  induction vs with
  | nil => rw [List.map_nil, AreNodes, Value.AreShaped]
  | cons v vs ih => rw [List.map_cons, AreNodes, IsNode, ih, Value.AreShaped]

theorem isNode_call (head : Head) (suits : head.Suits r ts) (args : ∀ t ∈ ts, t.IsNode r) :
    (Tree.call head ts).IsNode r := by
  rw [IsNode]
  exact ⟨suits, areNodes_iff.mpr args⟩

theorem isNode_list (items : ∀ t ∈ ts, t.IsNode r) : (Script.Parser.list ts).IsNode r := by
  rw [Script.Parser.list]
  split
  · rename_i vs all
    obtain rfl := literals_of_mapM all
    rw [IsNode, Value.IsShaped, ← areNodes_literals]
    exact areNodes_iff.mpr items
  · rename_i some
    exact isNode_call .list (call_of_mapM some) items

theorem isBody_sequence (statements : ∀ t ∈ ts, t.IsNode r) : (Tree.sequence ts).IsBody r := by
  rw [Tree.sequence, IsBody]
  exact areNodes_iff.mpr statements

theorem isNode_closure (params : List String) (statements : ∀ t ∈ ts, t.IsNode r) :
    (Tree.literal (.closure params (.sequence ts) none)).IsNode r := by
  rw [IsNode, Value.IsShaped]
  exact ⟨rfl, isBody_sequence statements⟩

theorem isNode_bind (name : String) (value : t.IsNode r) : (Tree.bind name t).IsNode r :=
  isNode_call (.bind name) rfl (List.forall_mem_singleton.mpr value)

/-- The negation of a numeral is a numeral, so minus after minus stays exact. -/
theorem isNode_negated (operand : t.IsNode r) : (Script.Rho.negated t).IsNode r := by
  unfold Script.Rho.negated
  split
  · rename_i i
    rw [IsNode, Value.IsShaped] at operand ⊢
    intro same
    exact operand (by rw [← Int64.neg_neg (a := i), same]; rfl)
  · rw [IsNode, Value.IsShaped] <;> simp
  · exact isNode_call (.op .neg) rfl (List.forall_mem_singleton.mpr operand)

end Tree

/-! ## What the readers make -/

namespace Script

/-- Whether a token is no numeral of the least integer. -/
def Token.IsNumeral : Token → Prop
  | .int i => i ≠ Int64.minValue
  | _ => True

/-- A numeral carries no sign, and its digits are less than the least integer takes. -/
theorem isNumeral_of_tokens {source : String} {placed : List Placed}
    (cut : tokenize source = .ok placed) :
    ∀ t ∈ placed, t.token.IsNumeral := by
  intro t mem
  cases shape : t.token with
  | int i =>
      have isExact := isExact_of_tokens cut t mem fun x isFloat => by
        rw [shape] at isFloat
        exact nomatch isFloat
      rwa [shape] at isExact
  | _ => trivial

theorem ne_minValue_neg {i : Int64} (least : i ≠ Int64.minValue) : -i ≠ Int64.minValue := by
  intro same
  exact least (by rw [← Int64.neg_neg (a := i), same]; rfl)

/-- The least integer is the only one whose negation is too large. -/
theorem toInt_neg_of_ne {i : Int64} (least : i ≠ Int64.minValue) : (-i).toInt = -i.toInt := by
  have above : -2 ^ 63 ≤ i.toInt := i.le_toInt
  have below : i.toInt < 2 ^ 63 := i.toInt_lt
  have other : i.toInt ≠ -2 ^ 63 := fun same => least (Int64.toInt_inj.mp same)
  rw [Int64.toInt_neg, Int.bmod_eq_of_le (by omega) (by omega)]

variable {ctx : Context}

theorem call_isNode {P : Token → Prop} {first : String} {others : List String} {ts : List Tree}
    (place : Text.Position) (args : ∀ t ∈ ts, t.IsNode ctx.registry) :
    Returns P (Parser.call ctx ⟨first :: others⟩ ts place) (Tree.IsNode ctx.registry) := by
  refine (call_returns ctx _ ts place).mono ?_
  rintro t (⟨registered, ⟨kind, serial, fields, rfl⟩ | ⟨some, rfl⟩⟩ | rfl)
  · rw [Tree.IsNode, Value.IsShaped] <;> simp
  · exact Tree.isNode_call (.construct _) ⟨registered, some⟩ args
  · exact Tree.isNode_call (.invoke _) (List.cons_ne_nil _ _) args

theorem Pi.makes_shaped (ctx : Context) : Pi.Makes Token.IsNumeral ctx (Tree.IsNode ctx.registry)
    (fun ts => ∀ t ∈ ts, t.IsNode ctx.registry) (Tree.IsNode ctx.registry) where
  nil := nofun
  cons first rest := List.forall_mem_cons.mpr ⟨first, rest⟩
  bool _ := by rw [Tree.IsNode, Value.IsShaped] <;> simp
  int numeral := by rw [Tree.IsNode, Value.IsShaped]; exact numeral
  negative numeral := by rw [Tree.IsNode, Value.IsShaped]; exact ne_minValue_neg numeral
  float _ := by rw [Tree.IsNode, Value.IsShaped] <;> simp
  str _ := by rw [Tree.IsNode, Value.IsShaped] <;> simp
  reference _ _ := by rw [Tree.IsNode]; exact List.cons_ne_nil _ _
  bind _ value := Tree.isNode_bind _ value
  call place args := call_isNode place args
  op two operands := Tree.isNode_call (.op _) two operands
  list items := Tree.isNode_list items
  closure params statements := Tree.isNode_closure params statements

theorem Rho.makes_shaped (ctx : Context) :
    Rho.Makes Token.IsNumeral ctx fun _ => Tree.IsNode ctx.registry where
  outer isNode := isNode
  bool _ _ := by rw [Tree.IsNode, Value.IsShaped] <;> simp
  int _ _ numeral := by rw [Tree.IsNode, Value.IsShaped]; exact numeral
  float _ _ := by rw [Tree.IsNode, Value.IsShaped] <;> simp
  str _ _ := by rw [Tree.IsNode, Value.IsShaped] <;> simp
  reference _ _ _ := by rw [Tree.IsNode]; exact List.cons_ne_nil _ _
  call place args := call_isNode place args
  list items := Tree.isNode_list items
  closure params statements := Tree.isNode_closure params statements
  not operand := Tree.isNode_call (.op .not) rfl (List.forall_mem_singleton.mpr operand)
  negated operand := Tree.isNode_negated operand
  op two left right := Tree.isNode_call (.op _) two.symm
    (List.forall_mem_cons.mpr ⟨left, List.forall_mem_singleton.mpr right⟩)
  bind name value := Tree.isNode_bind name value
  named name params statements := Tree.isNode_bind name (Tree.isNode_closure params statements)

/-- Whether the readers of a language may come to negate an integer while they read the given
tokens: in the compact language the numeral behind a minus, in the language of statements what is
read as the operand of a minus at any place in the tokens, by any storey of the tower, whatever is
in view there. -/
def Language.Negates (ctx : Context) (placed : List Placed) (i : Int64) : Language → Prop
  | .pi =>
    ∃ before sign numeral after, placed.filter Pi.counts = before ++ sign :: numeral :: after ∧
      sign.token = .symbol .minus ∧ numeral.token = .int i
  | .rho => ∃ height levels c c', c.rest <:+ placed ∧
      Rho.nested (Rho.tower ctx height).unary levels c = .ok (.literal (.int i), c')

theorem Language.Negates.ne_minValue {language : Language} {placed : List Placed} {i : Int64}
    (numerals : ∀ t ∈ placed, t.token.IsNumeral) (negates : language.Negates ctx placed i) :
    i ≠ Int64.minValue := by
  cases language with
  | pi =>
      obtain ⟨before, sign, numeral, after, cut, -, isInt⟩ := negates
      have mem : numeral ∈ placed.filter Pi.counts := by
        rw [cut]
        simp
      have known := numerals numeral (List.mem_of_mem_filter mem)
      rwa [isInt] at known
  | rho =>
      obtain ⟨height, levels, c, c', behind, read⟩ := negates
      have shows : c.Shows Token.IsNumeral := ⟨trivial, fun t mem => numerals t (behind.subset mem)⟩
      have operands := (Rho.tower_makes (Rho.makes_shaped ctx) height).unary
      have reads := @Rho.nested_returns _ (fun _ => Tree.IsNode ctx.registry) _ operands levels
      have isNode := (reads shows read).2
      rwa [Tree.IsNode, Value.IsShaped] at isNode

end Script

/-- Whatever a text is translated to is shaped as scripts are, at every depth and in every function.
While a text is translated, no negation of an integer overflows, whether the text is refused or
not. -/
theorem shape_of_parse (language : Language) (ctx : Context) (source : String) (serial : Nat) :
    (∀ t next, Script.parse language ctx source serial = .ok (t, next) → t.IsBody ctx.registry) ∧
    ∀ placed i, Script.tokenize source = .ok placed → language.Negates ctx placed i →
      (-i).toInt = -i.toInt := by
  constructor
  · intro t next parsed
    rw [Script.parse] at parsed
    split at parsed
    · exact nomatch parsed
    rename_i placed cut
    have numerals := Script.isNumeral_of_tokens cut
    split at parsed
    · obtain ⟨ts, rfl, nodes⟩ :=
        Script.Rho.parse_makes (Script.Rho.makes_shaped ctx) trivial numerals parsed
      exact Tree.isBody_sequence nodes
    · obtain ⟨ts, rfl, nodes⟩ :=
        Script.Pi.parse_returns (fun _ => Script.Pi.makes_shaped ctx) trivial numerals
        parsed
      exact Tree.isBody_sequence nodes
  · intro placed i cut negates
    exact Script.toInt_neg_of_ne (negates.ne_minValue (Script.isNumeral_of_tokens cut))

/-- A function that returns a list, and an instance of which one field is known only when it is
made. -/
def pointed : String := "f = fun(a) \x7b [- -1, a] \x7d; Vector3(1, 2, f(3))"

set_option maxRecDepth 20000 in
theorem shape_of_parse_pointed : ∃ t placed,
    Script.parse .rho ⟨fun _ => false, .standard⟩ pointed 0 = .ok (t, 0) ∧ t.IsBody .standard ∧
    Script.tokenize pointed = .ok placed ∧
    Language.rho.Negates ⟨fun _ => false, .standard⟩ placed (-1) ∧
    (-(-1 : Int64)).toInt = -(-1 : Int64).toInt := by
  have parsed : Script.parse .rho ⟨fun _ => false, .standard⟩ pointed 0 = .ok (.sequence [
      .bind "f" (.literal (.closure ["a"]
        (.sequence [.call .list [.literal (.int 1), .reference ⟨["a"]⟩]]) none)),
      .call (.construct "Vector3") [.literal (.int 1), .literal (.int 2),
        .invoke ⟨["f"]⟩ [.literal (.int 3)]]], 0) := by
    cbv
  have cut : (Script.tokenize pointed).map (fun placed => (placed.drop 9).take 3) = .ok
      [⟨.symbol .minus, ⟨1, 17⟩⟩, ⟨.int 1, ⟨1, 18⟩⟩, ⟨.symbol .comma, ⟨1, 19⟩⟩] := by
    cbv
  cases tokens : Script.tokenize pointed with
  | error fault =>
      rw [tokens] at cut
      cases cut
  | ok placed =>
      rw [tokens] at cut
      have three : (placed.drop 9).take 3 = _ := Except.ok.inj cut
      have shape := List.take_append_drop 3 (placed.drop 9)
      rw [three] at shape
      -- The inner minus with its operand is the operand of the outer one.
      have negates : Language.rho.Negates ⟨fun _ => false, .standard⟩ placed (-1) :=
        ⟨2, 2, ⟨placed.drop 9, 1, [[]], 0⟩, ⟨_, 1, [[]], 0⟩, List.drop_suffix _ _,
          by rw [← shape]; rfl⟩
      obtain ⟨shaped, exact⟩ := shape_of_parse .rho ⟨fun _ => false, .standard⟩ pointed 0
      exact ⟨_, placed, parsed, shaped _ _ parsed, rfl, negates, exact placed _ tokens negates⟩

end PeerScript
