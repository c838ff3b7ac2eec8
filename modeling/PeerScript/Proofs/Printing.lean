import PeerScript.Proofs.RoundTrip

/-!
# Printing scripts of the language of statements

An `Expression` is what can be written with the operators between their operands.  It is printed
with no more parentheses than the precedence of the operators asks for: the left operand of an
operator may have operators of the same level, the right one only tighter ones, and prefix operators
are tighter than all others.  So the tokens of an operand depend on the level at which it stands.

Between two tokens there is a space, except behind a minus that is a prefix.
-/

set_option autoImplicit false

namespace PeerScript

open Script (Token Symbol IsName Lexes EndsWord EndsSymbol Context)
open Encoder (pathTokens appliedTokens)

/-- The level of precedence of an operator, loosest first.  Prefix operators are tightest. -/
def Operator.level : Operator → Nat
  | or => 0
  | and => 1
  | eq | ne => 2
  | lt | le | gt | ge => 3
  | add | sub => 4
  | mul | div | rem => 5
  | not | neg => 6

namespace Script.Rho

mutual

/-- An expression as it is written. -/
inductive Expression where
  | bool (b : Bool)
  | int (i : Int64)
  | str (s : String)
  | reference (path : Path)
  | call (path : Path) (args : List Expression)
  | list (items : List Expression)
  | function (params : List String) (body : List Statement)
  | binary (operator : Operator) (left right : Expression)
  | unary (operator : Operator) (operand : Expression)

/-- A statement as it is written. -/
inductive Statement where
  | bind (name : String) (value : Expression)
  | run (e : Expression)

end

/-! ## What stands for what -/

mutual

/-- The tree of an expression.  A list of literals is a literal. -/
def Expression.tree : Expression → Tree
  | .bool b => .literal (.bool b)
  | .int i => .literal (.int i)
  | .str s => .literal (.str s)
  | .reference path => .reference path
  | .call path args => .invoke path (Expression.trees args)
  | .list items => Parser.list (Expression.trees items)
  | .function params body => .literal (.closure params (.sequence (Statement.trees body)) none)
  | .binary operator left right => .op operator [left.tree, right.tree]
  | .unary operator operand => .op operator [operand.tree]
termination_by structural e => e

/-- The trees of expressions. -/
def Expression.trees : List Expression → List Tree
  | [] => []
  | e :: rest => e.tree :: Expression.trees rest
termination_by structural es => es

/-- The tree of a statement. -/
def Statement.tree : Statement → Tree
  | .bind name e => .bind name e.tree
  | .run e => e.tree
termination_by structural statement => statement

/-- The trees of statements. -/
def Statement.trees : List Statement → List Tree
  | [] => []
  | statement :: rest => statement.tree :: Statement.trees rest
termination_by structural statements => statements

end

/-! ## What can be written -/

/-- A path that is no keyword and whose root is bound. -/
structure IsVisible (ctx : Context) (path : Path) : Prop where
  spelled : path.IsSpelled
  plain : path.root ≠ "true" ∧ path.root ≠ "false" ∧ path.root ≠ keyword
  bound : ctx.isBound path.root = true

mutual

/-- The expression can be written where the roots of its paths are bound.  A minus in front of a
numeral would not be an operator. -/
def Expression.IsWritten (ctx : Context) : Expression → Prop
  | .bool _ | .str _ => True
  | .int i => i ≠ Int64.minValue
  | .reference path => IsVisible ctx path
  | .call path args => IsVisible ctx path ∧ Expression.AreWritten ctx args
  | .list items => Expression.AreWritten ctx items
  | .function params body => (∀ name ∈ params, IsName name) ∧ Statement.AreWritten ctx body
  | .binary operator left right => operator.arity = 2 ∧ left.IsWritten ctx ∧ right.IsWritten ctx
  | .unary operator operand =>
      operator.arity = 1 ∧ (operator = .neg → ∀ i, operand ≠ .int i) ∧ operand.IsWritten ctx
termination_by structural e => e

/-- The expressions can be written where the roots of their paths are bound. -/
def Expression.AreWritten (ctx : Context) : List Expression → Prop
  | [] => True
  | e :: rest => e.IsWritten ctx ∧ Expression.AreWritten ctx rest
termination_by structural es => es

/-- The statement can be written where the roots of its paths are bound. -/
def Statement.IsWritten (ctx : Context) : Statement → Prop
  | .bind name e => IsName name ∧ e.IsWritten ctx
  | .run e => e.IsWritten ctx
termination_by structural statement => statement

/-- The statements can be written where the roots of their paths are bound. -/
def Statement.AreWritten (ctx : Context) : List Statement → Prop
  | [] => True
  | statement :: rest => statement.IsWritten ctx ∧ Statement.AreWritten ctx rest
termination_by structural statements => statements

end

/-! ## Tokens -/

/-- The level of the loosest operator of an expression that stands in no delimiters. -/
def Expression.level : Expression → Nat
  | .binary operator _ _ => operator.level
  | _ => 6

/-- Tokens of the given level where a certain one is asked for: in parentheses if they are
looser. -/
def enclosed (asked level : Nat) (ts : List Token) : List Token :=
  if level < asked then .symbol .lParen :: (ts ++ [.symbol .rParen]) else ts

/-- The number of parentheses around what has a certain level where another one is asked for. -/
def enclosures (asked level : Nat) : Nat := if level < asked then 1 else 0

/-- Tokens with commas between them. -/
def listed (parts : List (List Token)) : List Token := [.symbol .comma].intercalate parts

/-- Tokens with semicolons between them. -/
def separated (parts : List (List Token)) : List Token := [.symbol .semi].intercalate parts

mutual

/-- The tokens of an expression. -/
def Expression.tokens : Expression → List Token
  | .bool b => [.name (if b then "true" else "false")]
  | .int i => if i.toInt < 0 then [.symbol .minus, .int (-i)] else [.int i]
  | .str s => [.str s]
  | .reference path => pathTokens path
  | .call path args => appliedTokens (pathTokens path) (Expression.allTokens args)
  | .list items => .symbol .lBracket :: (listed (Expression.allTokens items) ++ [.symbol .rBracket])
  | .function params body =>
      .name keyword :: .symbol .lParen :: (listed (params.map fun name => [.name name]) ++
        .symbol .rParen :: .symbol .lBrace ::
          (separated (Statement.allTokens body) ++ [.symbol .rBrace]))
  | .binary operator left right =>
      enclosed operator.level left.level left.tokens ++
        .symbol operator.mark :: enclosed (operator.level + 1) right.level right.tokens
  | .unary operator operand => .symbol operator.mark :: enclosed 6 operand.level operand.tokens
termination_by structural e => e

/-- The tokens of expressions. -/
def Expression.allTokens : List Expression → List (List Token)
  | [] => []
  | e :: rest => e.tokens :: Expression.allTokens rest
termination_by structural es => es

/-- The tokens of a statement. -/
def Statement.tokens : Statement → List Token
  | .bind name e => .name name :: .symbol .assign :: e.tokens
  | .run e => e.tokens
termination_by structural statement => statement

/-- The tokens of statements. -/
def Statement.allTokens : List Statement → List (List Token)
  | [] => []
  | statement :: rest => statement.tokens :: Statement.allTokens rest
termination_by structural statements => statements

end

/-! ## Nesting -/

mutual

/-- The number of levels that the reader of an expression goes down: one for each pair of
parentheses, each prefix operator, each item of a list, each argument and each statement of a
function. -/
def Expression.nesting : Expression → Nat
  | .bool _ | .str _ | .reference _ => 0
  | .int i => if i.toInt < 0 then 1 else 0
  | .call _ args => Expression.deepest args
  | .list items => Expression.deepest items
  | .function _ body => Statement.deepest body
  | .binary operator left right =>
      max (left.nesting + enclosures operator.level left.level)
        (right.nesting + enclosures (operator.level + 1) right.level)
  | .unary _ operand => operand.nesting + enclosures 6 operand.level + 1
termination_by structural e => e

/-- The number of levels for the deepest of the expressions. -/
def Expression.deepest : List Expression → Nat
  | [] => 0
  | e :: rest => max (e.nesting + 1) (Expression.deepest rest)
termination_by structural es => es

/-- The number of levels below a statement. -/
def Statement.nesting : Statement → Nat
  | .bind _ e | .run e => e.nesting
termination_by structural statement => statement

/-- The number of levels for the deepest of the statements. -/
def Statement.deepest : List Statement → Nat
  | [] => 0
  | statement :: rest => max (statement.nesting + 1) (Statement.deepest rest)
termination_by structural statements => statements

end

-- The equations are made here, once, for every proof that rewrites with them.
attribute [simp] Expression.tree Statement.tree Expression.IsWritten Statement.IsWritten
  Expression.tokens Statement.tokens Expression.nesting Statement.nesting

/-! ## Text -/

/-- Whether an operand ends with the token. -/
def endsOperand : Token → Bool
  | .symbol mark => mark == .rParen || mark == .rBracket || mark == .rBrace
  | _ => true

/-- Tokens with a space behind each of them but a minus that no operand stands in front of. -/
def spaced (behindOperand : Bool) : List Token → List Char
  | [] => []
  | t :: rest =>
      t.spelling ++ (if t.isSymbol .minus && !behindOperand then [] else [' ']) ++
        spaced (endsOperand t) rest

/-- A script as it is printed. -/
def Statement.print (statements : List Statement) : String :=
  String.ofList (spaced false (separated (Statement.allTokens statements)))

theorem lexes_spaced : ∀ {ts : List Token} (behindOperand : Bool), (∀ t ∈ ts, t.IsSpelled) →
    Lexes (spaced behindOperand ts) (ts ++ [.finish])
  | [], _, _ => .nil
  | t :: rest, behindOperand, spelled => by
      obtain ⟨first, others⟩ := List.forall_mem_cons.mp spelled
      have more := lexes_spaced (endsOperand t) others
      rw [spaced, List.append_assoc]
      split
      · -- a prefix
        rename_i glued
        rw [Bool.and_eq_true] at glued
        cases t with
        | symbol mark =>
            obtain rfl : mark = .minus := of_decide_eq_true glued.1
            exact Lexes.solid .minus rfl more
        | _ => exact nomatch glued.1
      · exact first.cutsInto (Encoder.Apart.cons (by decide)) (.space more)

/-- A token of what is printed, which is on one line. -/
def IsPrinted (t : Token) : Prop := t.IsSpelled ∧ t.isNewline = false

theorem isPrinted_name {name : String} (h : IsName name) : IsPrinted (.name name) := ⟨h, rfl⟩

theorem isPrinted_int {i : Int64} (h : 0 ≤ i.toInt) : IsPrinted (.int i) := ⟨h, rfl⟩

theorem isPrinted_symbol (mark : Symbol) : IsPrinted (.symbol mark) := ⟨trivial, rfl⟩

/-! ### The tokens of what is written can be written -/

theorem forall_mem_intercalate {P : Token → Prop} {mark : Token} {parts : List (List Token)}
    (separator : P mark) (each : ∀ part ∈ parts, ∀ t ∈ part, P t) :
    ∀ t ∈ [mark].intercalate parts, P t := by
  induction parts with
  | nil => exact nofun
  | cons part rest ih =>
      obtain ⟨first, others⟩ := List.forall_mem_cons.mp each
      cases rest with
      | nil => simpa using first
      | cons next rest =>
          rw [List.intercalate_cons_cons]
          simp only [List.forall_mem_append, List.forall_mem_singleton]
          exact ⟨⟨first, separator⟩, ih others⟩

theorem forall_mem_enclosed {P : Token → Prop} {ts : List Token} (opening : P (.symbol .lParen))
    (closing : P (.symbol .rParen)) (each : ∀ t ∈ ts, P t) (asked level : Nat) :
    ∀ t ∈ enclosed asked level ts, P t := by
  unfold enclosed
  split
  · exact List.forall_mem_cons.mpr ⟨opening, List.forall_mem_append.mpr
      ⟨each, List.forall_mem_singleton.mpr closing⟩⟩
  · exact each

theorem printed_path {path : Path} (spelled : path.IsSpelled) :
    ∀ t ∈ pathTokens path, IsPrinted t := by
  refine forall_mem_intercalate (isPrinted_symbol _) fun part mem => ?_
  obtain ⟨name, among, rfl⟩ := List.mem_map.mp mem
  exact List.forall_mem_singleton.mpr (isPrinted_name (spelled.names name among))

section Spelled

variable {ctx : Context}

mutual

theorem Expression.IsWritten.printed :
    ∀ {e : Expression}, e.IsWritten ctx → ∀ t ∈ e.tokens, IsPrinted t
  | .bool b, _ => by
      rw [Expression.tokens]
      refine List.forall_mem_singleton.mpr ?_
      cases b
      · exact isPrinted_name (by decide)
      · exact isPrinted_name (by decide)
  | .int i, h => by
      rw [Expression.IsWritten] at h
      rw [Expression.tokens]
      split
      · rename_i negative
        refine List.forall_mem_cons.mpr ⟨isPrinted_symbol _, List.forall_mem_singleton.mpr ?_⟩
        have opposite : -i = Int64.ofNat i.toInt.natAbs := by
          have same := congrArg Neg.neg (neg_ofNat_natAbs negative)
          rw [Int64.neg_neg] at same
          exact same.symm
        refine isPrinted_int ?_
        rw [opposite, Int64.toInt_ofNat_of_lt (Encoder.toInt_natAbs_lt h)]
        exact Int.natCast_nonneg _
      · exact List.forall_mem_singleton.mpr (isPrinted_int (Int.le_of_not_gt ‹_›))
  | .str _, _ => by
      rw [Expression.tokens]
      exact List.forall_mem_singleton.mpr ⟨trivial, rfl⟩
  | .reference path, h => by
      rw [Expression.IsWritten] at h
      rw [Expression.tokens]
      exact printed_path h.spelled
  | .call path args, h => by
      rw [Expression.IsWritten] at h
      rw [Expression.tokens]
      refine List.forall_mem_append.mpr
        ⟨printed_path h.1.spelled, List.forall_mem_cons.mpr ⟨isPrinted_symbol _, ?_⟩⟩
      exact List.forall_mem_append.mpr
        ⟨forall_mem_intercalate (isPrinted_symbol _) h.2.printed,
          List.forall_mem_singleton.mpr (isPrinted_symbol _)⟩
  | .list items, h => by
      rw [Expression.IsWritten] at h
      rw [Expression.tokens]
      refine List.forall_mem_cons.mpr ⟨isPrinted_symbol _, List.forall_mem_append.mpr ⟨?_, ?_⟩⟩
      · exact forall_mem_intercalate (isPrinted_symbol _) h.printed
      · exact List.forall_mem_singleton.mpr (isPrinted_symbol _)
  | .function params body, h => by
      rw [Expression.IsWritten] at h
      rw [Expression.tokens]
      have parameters : ∀ part ∈ params.map fun name => [Token.name name], ∀ t ∈ part,
          IsPrinted t := by
        intro part mem
        obtain ⟨name, among, rfl⟩ := List.mem_map.mp mem
        exact List.forall_mem_singleton.mpr (isPrinted_name (h.1 name among))
      simp only [List.forall_mem_cons, List.forall_mem_append]
      exact ⟨isPrinted_name (by decide), isPrinted_symbol _,
        forall_mem_intercalate (isPrinted_symbol _) parameters, isPrinted_symbol _,
        isPrinted_symbol _,
        forall_mem_intercalate (isPrinted_symbol _) h.2.printed, isPrinted_symbol _, nofun⟩
  | .binary operator left right, h => by
      rw [Expression.IsWritten] at h
      rw [Expression.tokens]
      simp only [List.forall_mem_cons, List.forall_mem_append]
      have side : ∀ {ts : List Token}, (∀ t ∈ ts, IsPrinted t) →
          ∀ asked level, ∀ t ∈ enclosed asked level ts,
          IsPrinted t := forall_mem_enclosed (isPrinted_symbol _) (isPrinted_symbol _)
      exact ⟨side h.2.1.printed _ _, isPrinted_symbol _, side h.2.2.printed _ _⟩
  | .unary operator operand, h => by
      rw [Expression.IsWritten] at h
      rw [Expression.tokens]
      refine List.forall_mem_cons.mpr ⟨isPrinted_symbol _, ?_⟩
      exact forall_mem_enclosed (isPrinted_symbol _) (isPrinted_symbol _) h.2.2.printed _ _

theorem Expression.AreWritten.printed : ∀ {es : List Expression}, Expression.AreWritten ctx es →
    ∀ part ∈ Expression.allTokens es, ∀ t ∈ part, IsPrinted t
  | [], _ => by
      rw [Expression.allTokens]
      exact nofun
  | _ :: _, h => by
      rw [Expression.AreWritten] at h
      rw [Expression.allTokens]
      exact List.forall_mem_cons.mpr ⟨h.1.printed, h.2.printed⟩

theorem Statement.IsWritten.printed : ∀ {statement : Statement}, statement.IsWritten ctx →
    ∀ t ∈ statement.tokens, IsPrinted t
  | .bind name e, h => by
      rw [Statement.IsWritten] at h
      rw [Statement.tokens]
      exact List.forall_mem_cons.mpr
        ⟨isPrinted_name h.1, List.forall_mem_cons.mpr ⟨isPrinted_symbol _, h.2.printed⟩⟩
  | .run e, h => by
      rw [Statement.IsWritten] at h
      rw [Statement.tokens]
      exact h.printed

theorem Statement.AreWritten.printed :
    ∀ {statements : List Statement}, Statement.AreWritten ctx statements →
    ∀ part ∈ Statement.allTokens statements, ∀ t ∈ part, IsPrinted t
  | [], _ => by
      rw [Statement.allTokens]
      exact nofun
  | _ :: _, h => by
      rw [Statement.AreWritten] at h
      rw [Statement.allTokens]
      exact List.forall_mem_cons.mpr ⟨h.1.printed, h.2.printed⟩

end

end Spelled

end Script.Rho

end PeerScript
