import PeerScript.Proofs.Translation
import PeerScript.Proofs.Translation.Expressions

/-!
# How deep trees nest

A script is refused when it nests on too many levels, and `statements_depth` says how deep the trees
of the scripts that are not refused can be.  The compact language counts every term that stands in
another one, so no statement of it is deeper than the limit.

The language of statements counts what stands in delimiters or behind a prefix operator.  It does
not count what an operator stands between, what a binding binds, and the functions that are
statements themselves, so a statement of it may be deeper by as many levels as these take.  How many
these may be is not limited: `parse_sum` and `parse_nest` are the two ways past the limit.
-/

set_option autoImplicit false

namespace PeerScript

open Script (Language Token nestingLimit)

/-! ## Depth -/

mutual

/-- The depth of a value.  An instance counts as one level, whatever its fields are. -/
def Value.depth : Value → Nat
  | .list items => Value.depths items + 1
  | .closure _ body _ => body.depth + 1
  | _ => 1

/-- The depth of the deepest of the values. -/
def Value.depths : List Value → Nat
  | [] => 0
  | v :: rest => max v.depth (Value.depths rest)

/-- The depth of a tree: of a call, one more than that of its deepest argument.  A list of
statements is as deep as the deepest of them. -/
def Tree.depth : Tree → Nat
  | .literal v => v.depth
  | .reference _ => 1
  | .call .sequence args => Tree.depths args
  | .call _ args => Tree.depths args + 1

/-- The depth of the deepest of the trees. -/
def Tree.depths : List Tree → Nat
  | [] => 0
  | t :: rest => max t.depth (Tree.depths rest)

end

/-- Whether a tree is a function. -/
def Tree.isFunction : Tree → Bool
  | .literal (.closure ..) => true
  | _ => false

mutual

/-- The most levels of a value that are not counted where it is written as a statement, along one
way into it. -/
def Value.uncounted : Value → Nat
  | .list items => Value.mostUncounted items
  | .closure _ body _ => body.uncounted
  | _ => 0

/-- The most levels that are not counted, of all the values. -/
def Value.mostUncounted : List Value → Nat
  | [] => 0
  | v :: rest => max v.uncounted (Value.mostUncounted rest)

/-- The most levels of a tree that are not counted where it is written as a statement, along one way
into it: operators between two operands, bindings, and the functions to which these give names. -/
def Tree.uncounted : Tree → Nat
  | .literal v => v.uncounted
  | .reference _ => 0
  | .call (.bind _) args => Tree.mostUncounted args + (if args.any Tree.isFunction then 2 else 1)
  | .call (.op operator) args => Tree.mostUncounted args + (if operator.arity = 2 then 1 else 0)
  | .call _ args => Tree.mostUncounted args

/-- The most levels that are not counted, of all the trees. -/
def Tree.mostUncounted : List Tree → Nat
  | [] => 0
  | t :: rest => max t.uncounted (Tree.mostUncounted rest)

end

/-- The levels of a tree that a language does not count. -/
def Script.Language.uncounted : Language → Tree → Nat
  | .pi, _ => 0
  | .rho, t => t.uncounted

namespace Tree

variable {levels : Nat} {t u : Tree} {ts : List Tree}

theorem depth_le_depths (mem : t ∈ ts) : t.depth ≤ depths ts := by
  induction ts with
  | nil => cases mem
  | cons u ts ih =>
      rw [depths]
      rcases List.mem_cons.mp mem with rfl | mem
      · exact Nat.le_max_left _ _
      · exact Nat.le_trans (ih mem) (Nat.le_max_right _ _)

theorem depths_literals (vs : List Value) : depths (vs.map .literal) = Value.depths vs := by
  induction vs with
  | nil => rfl
  | cons v vs ih => rw [List.map_cons, depths, depth, ih, Value.depths]

theorem mostUncounted_literals (vs : List Value) :
    mostUncounted (vs.map .literal) = Value.mostUncounted vs := by
  induction vs with
  | nil => rfl
  | cons v vs ih => rw [List.map_cons, mostUncounted, uncounted, ih, Value.mostUncounted]

/-- A list is one level deeper than its items, be it a literal or not. -/
theorem depth_list (ts : List Tree) : (Script.Parser.list ts).depth = depths ts + 1 := by
  rw [Script.Parser.list]
  split
  · rename_i vs all
    rw [literals_of_mapM all, depth, Value.depth, depths_literals]
  · rw [depth]
    exact Head.noConfusion

theorem uncounted_list (ts : List Tree) :
    (Script.Parser.list ts).uncounted = mostUncounted ts := by
  rw [Script.Parser.list]
  split
  · rename_i vs all
    rw [literals_of_mapM all, uncounted, Value.uncounted, mostUncounted_literals]
  · rw [uncounted]
    · exact fun _ => Head.noConfusion
    · exact fun _ => Head.noConfusion

end Tree

namespace Script

open Script.Parser

/-- A call is one level deeper than its arguments, unless it makes an instance at once. -/
theorem call_depth {P : Token → Prop} {ctx : Context} {path : Path} {ts : List Tree}
    (place : Text.Position) :
    Returns P (call ctx path ts place) fun t =>
      t.depth = 1 ∨ t.depth = Tree.depths ts + 1 ∧ t.uncounted = Tree.mostUncounted ts := by
  refine (call_returns ctx path ts place).mono ?_
  rintro t (⟨-, ⟨kind, serial, fields, rfl⟩ | ⟨-, rfl⟩⟩ | rfl)
  · exact .inl rfl
  · exact .inr ⟨rfl, rfl⟩
  · exact .inr ⟨rfl, rfl⟩

/-! ## The compact language -/

/-- Every term counts as a level. -/
theorem Pi.makes_deeper (P : Token → Prop) (ctx : Context) (levels : Nat) :
    Pi.Makes P ctx (fun t => t.depth ≤ levels) (fun ts => Tree.depths ts ≤ levels)
      (fun t => t.depth ≤ levels + 1) where
  nil := Nat.zero_le levels
  cons first rest := Nat.max_le.mpr ⟨first, rest⟩
  bool _ := Nat.le_add_left 1 levels
  int _ := Nat.le_add_left 1 levels
  negative _ := Nat.le_add_left 1 levels
  float _ := Nat.le_add_left 1 levels
  str _ := Nat.le_add_left 1 levels
  reference _ _ := Nat.le_add_left 1 levels
  bind _ value := Nat.succ_le_succ (Nat.max_le.mpr ⟨value, Nat.zero_le levels⟩)
  call place args := (call_depth place).mono fun t shallow => by omega
  op _ operands := Nat.succ_le_succ operands
  list items := by
    rw [Tree.depth_list]
    exact Nat.succ_le_succ items
  closure params statements := Nat.succ_le_succ statements

/-! ## The language of statements -/

end Script

/-- A tree that is not deeper than the levels that may nest and those that are not counted. -/
def Tree.Nears (levels : Nat) (t : Tree) : Prop := t.depth ≤ levels + t.uncounted

/-- Trees of which none is deeper than the levels that may nest and those that are not counted. -/
def Tree.AllNear (levels : Nat) (ts : List Tree) : Prop := ∀ t ∈ ts, t.Nears levels

namespace Tree

variable {levels : Nat} {t u : Tree} {ts : List Tree}

theorem AllNear.depths_le (h : AllNear levels ts) : depths ts ≤ levels + mostUncounted ts := by
  induction ts with
  | nil => exact Nat.zero_le _
  | cons t ts ih =>
      have first : t.depth ≤ levels + t.uncounted := h t List.mem_cons_self
      have rest := ih fun u mem => h u (List.mem_cons_of_mem t mem)
      rw [depths, mostUncounted]
      omega

theorem Nears.mono (h : t.Nears levels) {more : Nat} (le : levels ≤ more) : t.Nears more := by
  unfold Nears at h ⊢
  omega

theorem nears_of_depth_one (one : t.depth = 1) : t.Nears (levels + 1) := by
  unfold Nears
  omega

namespace AllNear

variable (h : AllNear levels ts)

include h

theorem list : (Script.Parser.list ts).Nears (levels + 1) := by
  have depths := h.depths_le
  rw [Nears, depth_list, uncounted_list]
  omega

theorem closure (params : List String) :
    (Tree.literal (.closure params (.sequence ts) none)).Nears (levels + 1) := by
  have depths : Tree.depths ts ≤ levels + mostUncounted ts := h.depths_le
  rw [Nears, depth, Value.depth, Tree.sequence, depth, uncounted, Value.uncounted, uncounted]
  · omega
  · exact fun _ => Head.noConfusion
  · exact fun _ => Head.noConfusion

/-- The level of a function that is named where it stands is not counted. -/
theorem named (name : String) (params : List String) :
    (Tree.bind name (.literal (.closure params (.sequence ts) none))).Nears levels := by
  have within : (Tree.sequence ts).depth ≤ levels + (Tree.sequence ts).uncounted := h.depths_le
  have named : [Tree.literal (.closure params (.sequence ts) none)].any isFunction = true := rfl
  rw [Nears, Tree.bind, depth, depths, depth, Value.depth, depths, uncounted,
    mostUncounted, uncounted, Value.uncounted, mostUncounted, if_pos named]
  · omega
  · exact Head.noConfusion

end AllNear

theorem Nears.bind (name : String) (h : t.Nears levels) : (Tree.bind name t).Nears levels := by
  unfold Nears at h
  rw [Nears, Tree.bind, depth, depths, depths, uncounted, mostUncounted, mostUncounted]
  · split <;> omega
  · exact Head.noConfusion

theorem Nears.unary (operator : Operator) (h : t.Nears levels) :
    (Tree.op operator [t]).Nears (levels + 1) := by
  unfold Nears at h
  rw [Nears, Tree.op, depth, depths, depths, uncounted, mostUncounted, mostUncounted]
  · omega
  · exact Head.noConfusion

theorem Nears.binary {operator : Operator} (arity : operator.arity = 2) (left : t.Nears levels)
    (right : u.Nears levels) : (Tree.op operator [t, u]).Nears levels := by
  unfold Nears at left right
  rw [Nears, Tree.op, depth, depths, depths, depths, uncounted, mostUncounted, mostUncounted,
    mostUncounted, if_pos arity]
  · omega
  · exact Head.noConfusion

theorem Nears.negated (h : t.Nears levels) : (Script.Rho.negated t).Nears (levels + 1) := by
  unfold Script.Rho.negated
  split
  · exact nears_of_depth_one rfl
  · exact nears_of_depth_one rfl
  · exact h.unary .neg

end Tree

namespace Script.Rho

open Script.Parser

/-- What stands in delimiters or behind a prefix operator counts as a level, what stands between
operators or behind a name that is bound does not. -/
theorem makes_near (P : Token → Prop) (ctx : Context) : Makes P ctx Tree.Nears where
  outer near := near.mono (Nat.le_succ _)
  bool _ _ := Tree.nears_of_depth_one rfl
  int _ _ _ := Tree.nears_of_depth_one rfl
  float _ _ := Tree.nears_of_depth_one rfl
  str _ _ := Tree.nears_of_depth_one rfl
  reference _ _ _ := Tree.nears_of_depth_one rfl
  call place near := by
    refine (call_depth place).mono ?_
    rintro t (one | ⟨deeper, same⟩)
    · exact Tree.nears_of_depth_one one
    · have depths := Tree.AllNear.depths_le near
      rw [Tree.Nears, deeper, same]
      omega
  list near := Tree.AllNear.list near
  closure params near := Tree.AllNear.closure near params
  not near := near.unary .not
  negated near := near.negated
  op two left right := left.binary two right
  bind name near := near.bind name
  named name params near := Tree.AllNear.named near name params

end Script.Rho

/-! ## Ways past the limit -/

/-- A function without parameters, whose only statement is again such a function, and so on. -/
def nest : Nat → List Tree
  | 0 => []
  | n + 1 => [.bind "f" (.literal (.closure [] (.sequence (nest n)) none))]

/-- The characters of such functions, in front of others. -/
def nestChars : Nat → List Char → List Char
  | 0, rest => rest
  | n + 1, rest => "fun f()\x7b".toList ++ nestChars n ('}' :: rest)

/-- Functions in each other, on the given number of levels. -/
def nestText (n : Nat) : String := String.ofList (nestChars n [])

/-- The tokens of such functions, in front of others. -/
def nestTokens : Nat → List Token → List Token
  | 0, more => more
  | n + 1, more =>
    .name "fun" :: .name "f" :: .symbol .lParen :: .symbol .rParen :: .symbol .lBrace ::
      nestTokens n (.symbol .rBrace :: more)

/-- Each of the functions takes two levels, of which none is counted. -/
theorem depths_nest (n : Nat) : Tree.depths (nest n) = 2 * n := by
  induction n with
  | zero => rfl
  | succ n ih =>
      simp only [nest, Tree.bind, Tree.sequence, Tree.depths, Tree.depth, Value.depth, ih]
      omega

/-- Each operand of a sum but one takes a level, of which none is counted. -/
theorem depth_addedOnes (n : Nat) {t : Tree} (pos : 0 < t.depth) :
    (addedOnes n t).depth = t.depth + n := by
  induction n generalizing t with
  | zero => rfl
  | succ n ih =>
      have deeper : (Tree.op .add [t, oneTree]).depth = t.depth + 1 := by
        simp only [Tree.op, oneTree, Tree.depth, Tree.depths, Value.depth]
        omega
      rw [addedOnes, ih (by omega), deeper]
      omega

theorem length_nestTokens (n : Nat) (more : List Token) : n ≤ (nestTokens n more).length := by
  induction n generalizing more with
  | zero => exact Nat.zero_le _
  | succ n ih =>
      have inside := ih (.symbol .rBrace :: more)
      simp only [nestTokens, List.length_cons]
      omega

namespace Script

open Script.Parser

theorem lexes_nest (n : Nat) : ∀ {rest : List Char} {more : List Token}, Lexes rest more →
    Lexes (nestChars n rest) (nestTokens n more) := by
  have isFun : IsName "fun" := by decide
  have isF : IsName "f" := by decide
  induction n with
  | zero => exact fun lexes => lexes
  | succ n ih =>
      intro rest more lexes
      have inside := ih (Lexes.solid .rBrace rfl lexes)
      have header :=
        Lexes.solid .lParen rfl (Lexes.solid .rParen rfl (Lexes.solid .lBrace rfl inside))
      have named := Lexes.name isF (fun c first => by cases first; decide) header
      exact Lexes.name isFun (fun c first => by cases first; decide) (Lexes.space named)

namespace Rho

variable {I : Invariant} {c : Cursor}

/-- No parameters. -/
theorem parameters_none {u : Token} {ts : List Token}
    (stands : Stands I c (.symbol .rParen :: u :: ts)) :
    ∃ c', bracketed (do parameters (← remaining)) c = .ok ([], c') ∧ Stands I c' (u :: ts) := by
  obtain ⟨rest, brackets, names, serial⟩ := c
  obtain ⟨flat, shows, keeps⟩ := stands
  obtain ⟨⟨token, place⟩, rest, rfl, shown, more⟩ := List.map_eq_cons_iff.mp shows
  obtain ⟨second, rest, rfl, -⟩ := List.map_eq_cons_iff.mp more
  cases flat
  cases shown
  exact ⟨⟨second :: rest, 0, names, serial⟩, rfl, rfl, more, keeps⟩

/-- The statements of a function in braces. -/
theorem block_reads {statements : Closing → Parser (List Tree)} {trees : List Tree} {c₁ : Cursor}
    {u : Token} {ts more : List Token} (stands : Stands I c ts)
    (read : statements .brace c = .ok (trees, c₁))
    (stands₁ : Stands I c₁ (.symbol .rBrace :: u :: more)) :
    ∃ c', block statements c = .ok (.sequence trees, c') ∧ Stands I c' (u :: more) := by
  obtain ⟨_, c₂, taken, -, stands₂⟩ := stands₁.advance
  refine ⟨{ c₂ with brackets := c.brackets }, ?_, stands.flat, stands₂.shows, stands₂.keeps⟩
  have current : (get : Parser Cursor) c = .ok (c, c) := rfl
  have unbracketed : (modify fun c => { c with brackets := 0 } : Parser PUnit) c = .ok ((), c) := by
    change Except.ok ((), { c with brackets := 0 }) = _
    rw [← stands.flat]
  rw [block, bind_of_ok current, bind_of_ok unbracketed, bind_of_ok read,
    bind_of_ok (stands₁.check .rBrace)]
  simp only [if_true]
  rw [bind_of_ok taken]
  rfl

/-- A function without parameters, where nothing is known of the names in view. -/
theorem function_reads {serial : Nat} {statements : Closing → Parser (List Tree)}
    {trees : List Tree} {u : Token} {ts more : List Token}
    (reads : ∀ c, Stands (Numbered serial) c ts → ∃ c₁,
      statements .brace c = .ok (trees, c₁) ∧
        Stands (Numbered serial) c₁ (.symbol .rBrace :: u :: more))
    (stands : Stands (Numbered serial) c
      (.symbol .lParen :: .symbol .rParen :: .symbol .lBrace :: ts)) (nonempty : ts ≠ []) :
    ∃ c', function statements c = .ok (.literal (.closure [] (.sequence trees) none), c') ∧
      Stands (Numbered serial) c' (u :: more) := by
  obtain ⟨t, rest, rfl⟩ := List.exists_cons_of_ne_nil nonempty
  obtain ⟨c₁, opened, stands₁⟩ := stands.expect "'(' after fun"
  have entered : Stands (Numbered serial) { c₁ with names := [] :: c₁.names }
      (.symbol .rParen :: .symbol .lBrace :: t :: rest) :=
        ⟨stands₁.flat, stands₁.shows, stands₁.keeps⟩
  obtain ⟨c₂, unparametrised, stands₂⟩ := parameters_none entered
  obtain ⟨c₃, braced, stands₃⟩ := stands₂.expect "'\x7b'"
  obtain ⟨c₄, read, stands₄⟩ := reads c₃ stands₃
  obtain ⟨c₅, blocked, stands₅⟩ := block_reads stands₃ read stands₄
  refine ⟨c₅.left, ?_, stands₅.flat, stands₅.shows, stands₅.keeps⟩
  rw [function, bind_of_ok opened, body]
  have enter : (modify fun c => { c with names := [] :: c.names } : Parser PUnit) c₁ =
    .ok ((), { c₁ with names := [] :: c₁.names }) := rfl
  rw [bind_of_ok enter]
  have inside : (do
      let params ← bracketed (do parameters (← remaining))
      expect .lBrace "'\x7b'"
      return .literal (.closure params (← block statements) none) : Parser Tree)
      { c₁ with names := [] :: c₁.names } =
      .ok (.literal (.closure [] (.sequence trees) none), c₅) := by
    rw [bind_of_ok unparametrised, bind_of_ok braced, bind_of_ok blocked]
    rfl
  rw [bind_of_ok inside]
  rfl

/-- A function that is a statement. -/
theorem statement_function (ctx : Context) {serial : Nat} {inner : Inner} {levels : Nat}
    {trees : List Tree} {u : Token} {ts more : List Token}
    (reads : ∀ c, Stands (Numbered serial) c ts → ∃ c₁,
      inner.statements levels .brace c = .ok (trees, c₁) ∧
        Stands (Numbered serial) c₁ (.symbol .rBrace :: u :: more))
    (stands : Stands (Numbered serial) c
      (.name "fun" :: .name "f" :: .symbol .lParen :: .symbol .rParen :: .symbol .lBrace :: ts))
    (nonempty : ts ≠ []) :
    ∃ c', statement ctx inner levels c =
        .ok (.bind "f" (.literal (.closure [] (.sequence trees) none)), c') ∧
      Stands (Numbered serial) c' (u :: more) := by
  obtain ⟨_, c₁, taken, -, stands₁⟩ := stands.advance
  obtain ⟨_, c₂, taken₂, -, stands₂⟩ := stands₁.advance
  obtain ⟨c₃, defined, stands₃⟩ := Pi.define_stands "f" stands₂
  obtain ⟨c', read, stands'⟩ :=
    function_reads reads (stands₃.mono fun _ _ ⟨_, numbered, _⟩ => numbered) nonempty
  refine ⟨c', ?_, stands'⟩
  have current : (get : Parser Cursor) c = .ok (c, c) := rfl
  have second : (c.rest.drop 1).head?.map Placed.token = some (.name "f") := by
    rw [← List.head?_map, List.map_drop, stands.shows]
    rfl
  rw [statement, bind_of_ok current]
  simp only [second]
  rw [bind_of_ok stands.peek]
  simp only
  rw [if_pos (show "fun" = keyword from rfl), bind_of_ok taken, bind_of_ok taken₂,
    bind_of_ok defined, bind_of_ok read]
  rfl

/-- Functions that are statements of functions are read without counting any level. -/
theorem statements_nest (ctx : Context) (levels serial n : Nat) : ∀ {height : Nat}, n ≤ height →
    ∀ {closing : Closing} {close : Token}, closing.isAt close = true →
      ∀ {c : Cursor} {more : List Token},
        Stands (Numbered serial) c (nestTokens n (close :: more)) →
      ∃ c', (tower ctx (height + 1)).statements levels closing c = .ok (nest n, c') ∧
        Stands (Numbered serial) c' (close :: more) := by
  induction n with
  | zero =>
      intro height _ closing close closes c more stands
      refine ⟨c, ?_, stands⟩
      change (do statementsWith _ closing (← remaining) : Parser (List Tree)) c = _
      rw [bind_of_ok stands.remaining]
      exact statementsWith_none closes _ stands
  | succ n ih =>
      intro height enough closing close closes c more stands
      obtain ⟨height, rfl⟩ :=
        Nat.exists_eq_succ_of_ne_zero (Nat.ne_of_gt (Nat.zero_lt_of_lt enough))
      have nonempty : nestTokens n (.symbol .rBrace :: close :: more) ≠ [] := by
        cases n <;> exact List.cons_ne_nil _ _
      obtain ⟨c', read, stands'⟩ := statement_function ctx (fun c stands =>
        ih (Nat.le_of_succ_le_succ enough) rfl stands) stands nonempty
      refine ⟨c', ?_, stands'⟩
      change (do statementsWith _ closing (← remaining) : Parser (List Tree)) c = _
      rw [bind_of_ok stands.remaining]
      exact statementsWith_one (fun _ => rfl) ⟨rfl, rfl⟩ closes stands read stands' _

end Rho

/-- Functions that are statements of functions are a script of the language of statements, however
many there are. -/
theorem parse_nest (ctx : Context) (n serial : Nat) :
    parse .rho ctx (nestText n) serial = .ok (.sequence (nest n), serial) := by
  have cut : Lexes (nestText n).toList (nestTokens n [.finish]) := by
    rw [nestText, String.toList_ofList]
    exact lexes_nest n .nil
  obtain ⟨placed, tokenized, shown⟩ := cut .start
  have enough : n ≤ placed.length := by
    have length := congrArg List.length shown
    rw [List.length_map] at length
    exact length ▸ length_nestTokens n [.finish]
  have start : Stands (Numbered serial) ⟨placed, 0, [[]], serial⟩ (nestTokens n [.finish]) :=
    ⟨rfl, shown, rfl⟩
  have atEnd : Rho.Closing.finish.isAt .finish = true := rfl
  obtain ⟨c, read, left⟩ := Rho.statements_nest ctx nestingLimit serial n enough atEnd start
  have tokens : tokenize (nestText n) = .ok placed := tokenized
  rw [parse, tokens]
  change Rho.parse ctx placed serial = _
  rw [Rho.parse]
  dsimp only
  rw [read]
  have unmoved : c.serial = serial := left.keeps
  rw [← unmoved]
  rfl

end Script

/-- No statement of a script that is not refused is deeper than the limit, the levels apart that the
language of the script does not count. -/
theorem statements_depth {language : Language} {ctx : Script.Context} {source : String}
    {serial next : Nat} {t : Tree}
    (parsed : Script.parse language ctx source serial = .ok (t, next)) :
    ∃ statements, t = .sequence statements ∧
      ∀ s ∈ statements, s.depth ≤ nestingLimit + language.uncounted s := by
  rw [Script.parse] at parsed
  split at parsed
  · exact nomatch parsed
  split at parsed
  · exact Script.Rho.parse_makes (Script.Rho.makes_near (fun _ => True) ctx) trivial
      (fun _ _ => trivial) parsed
  · obtain ⟨ts, rfl, shallow⟩ :=
      Script.Pi.parse_returns (Script.Pi.makes_deeper (fun _ => True) ctx) trivial
      (fun _ _ => trivial) parsed
    exact ⟨ts, rfl, fun s mem => Nat.le_trans (Tree.depth_le_depths mem) shallow⟩

/-- A sum in a list, to which a binding gives a name, and a function that is called with it. -/
def listed : String := "fun last(items) { items }\nsums = [1 + 2, -3]\nlast(sums)"

set_option maxRecDepth 20000 in
theorem statements_depth_listed :
    ∃ sums last call, Script.parse .rho ⟨fun _ => false, .empty⟩ listed 0 =
        .ok (.sequence [last, sums, call], 0) ∧
      sums.depth = 4 ∧ sums.uncounted = 2 ∧
      sums.depth ≤ nestingLimit + Language.rho.uncounted sums := by
  have parsed : Script.parse .rho ⟨fun _ => false, .empty⟩ listed 0 = .ok (.sequence [
      .bind "last" (.literal (.closure ["items"] (.sequence [.reference ⟨["items"]⟩]) none)),
      .bind "sums" (.call .list [.op .add [oneTree, .literal (.int 2)], .literal (.int (-3))]),
      .invoke ⟨["last"]⟩ [.reference ⟨["sums"]⟩]], 0) := by
    cbv
  obtain ⟨ts, same, shallow⟩ := statements_depth parsed
  cases same
  exact ⟨_, _, _, parsed, rfl, rfl, shallow _ (List.mem_cons_of_mem _ List.mem_cons_self)⟩

/-- Both a sum of 257 operands and 129 functions that are statements of each other are scripts of
the language of statements, and deeper than the limit. -/
theorem statements_too_deep :
    (∃ s, Script.parse .rho ⟨fun _ => false, .empty⟩ (sumText 256) 0 = .ok (.sequence [s], 0) ∧
      nestingLimit < s.depth) ∧
    ∃ s, Script.parse .rho ⟨fun _ => false, .empty⟩ (nestText 129) 0 = .ok (.sequence [s], 0) ∧
      nestingLimit < s.depth := by
  have limit : nestingLimit = 256 := rfl
  refine ⟨⟨_, Script.parse_sum _ 256 0, ?_⟩, _, Script.parse_nest _ 129 0, ?_⟩
  · have depth := depth_addedOnes 256 (t := oneTree) Nat.one_pos
    have one : oneTree.depth = 1 := rfl
    omega
  · have depth := depths_nest 129
    rw [nest, Tree.depths, Tree.depths, Nat.max_zero] at depth
    rw [depth, limit]
    decide

end PeerScript
