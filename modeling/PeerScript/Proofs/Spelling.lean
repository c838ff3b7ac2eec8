import PeerScript.Encoder
import PeerScript.Proofs.Lexing

/-!
# The tokens of written forms

Every value and every tree that is spelled with names only has a written form that is cut into
tokens as one expects: no two neighbours of a written form merge.  `Encoder.lexes_value` and
`Encoder.lexes_tree` say so in front of any text that stands apart from a term.
-/

set_option autoImplicit false

namespace PeerScript

open Script (Token Symbol IsName Lexes EndsWord EndsSymbol)

/-- The symbol that an operator is written with. -/
def Operator.mark : Operator → Symbol
  | add => .plus | sub => .minus | mul => .star | div => .slash | rem => .percent
  | eq => .eq | ne => .ne | lt => .lt | le => .le | gt => .gt | ge => .ge
  | and => .and | or => .or | not => .bang | neg => .minus

theorem Operator.mark_spelling (o : Operator) : o.mark.spelling = o.symbol.toList := by
  cases o <;> rfl

/-- A path of at least one name. -/
structure Path.IsSpelled (p : Path) : Prop where
  nonempty : p.segments ≠ []
  names : ∀ name ∈ p.segments, IsName name

/-- A head whose names can be written. -/
def Head.IsSpelled : Head → Prop
  | .bind name | .construct name => IsName name
  | .invoke path => path.IsSpelled
  | _ => True

mutual

/-- A value without floating point numbers whose names can be written. -/
def Value.IsSpelled (r : Registry) : Value → Prop
  | .float _ => False
  | .list items => Value.AreSpelled r items
  | .closure params body _ => (∀ name ∈ params, IsName name) ∧ body.IsSpelled r
  | .handle kind _ fields =>
      ∀ type, r.ofKind? kind = some type → IsName type.name ∧ Value.AreSpelled r fields
  | _ => True

/-- Values without floating point numbers whose names can be written. -/
def Value.AreSpelled (r : Registry) : List Value → Prop
  | [] => True
  | v :: rest => v.IsSpelled r ∧ Value.AreSpelled r rest

/-- A tree without floating point numbers whose names can be written. -/
def Tree.IsSpelled (r : Registry) : Tree → Prop
  | .literal v => v.IsSpelled r
  | .reference path => path.IsSpelled
  | .call head args => head.IsSpelled ∧ Tree.AreSpelled r args

/-- Trees without floating point numbers whose names can be written. -/
def Tree.AreSpelled (r : Registry) : List Tree → Prop
  | [] => True
  | t :: rest => t.IsSpelled r ∧ Tree.AreSpelled r rest

end

namespace Encoder

/-! ## Tokens of parts -/

/-- The numeral of a natural number. -/
def numeral (n : Nat) : Token := .int (Int64.ofNat n)

/-- The tokens of an integer. -/
def integerTokens (i : Int64) : List Token :=
  if i = Int64.minValue then
    [.symbol .minus, .symbol .lParen, .symbol .minus, numeral 9223372036854775807, .symbol .comma,
      numeral 1, .symbol .rParen]
  else if i.toInt < 0 then [.symbol .minus, numeral i.toInt.natAbs]
  else [numeral i.toInt.natAbs]

/-- The tokens of a path. -/
def pathTokens (p : Path) : List Token :=
  [.symbol .dot].intercalate (p.segments.map fun name => [.name name])

/-- The tokens of a head with its arguments. -/
def appliedTokens (head : List Token) (args : List (List Token)) : List Token :=
  head ++ .symbol .lParen :: ([.symbol .comma].intercalate args ++ [.symbol .rParen])

/-- The tokens of terms in brackets. -/
def bracketedTokens (items : List (List Token)) : List Token :=
  .symbol .lBracket :: (items.flatten ++ [.symbol .rBracket])

/-- The tokens of the parameters of a function. -/
def parameterTokens (params : List String) : List Token :=
  if params.isEmpty then [] else .symbol .pipe :: (params.map .name ++ [.symbol .pipe])

mutual

/-- The tokens of the written form of a value. -/
def valueTokens (e : Encoder) : Value → List Token
  | .bool b => [.name (if b then "true" else "false")]
  | .int i => integerTokens i
  | .float _ => []
  | .str s => [.str s]
  | .list items => bracketedTokens (e.valuesTokens items)
  | .closure params body _ =>
      .symbol .lBrace :: (parameterTokens params ++ (e.treeTokens body ++ [.symbol .rBrace]))
  | .native b => [.str ("<native " ++ b.name ++ ">")]
  | .handle kind _ fields =>
      match e.registry.ofKind? kind with
      | some type => appliedTokens [.name type.name] (e.valuesTokens fields)
      | none => [.str ("<" ++ kind.label ++ ">")]
  | .object o => [.str (e.describe o)]

/-- The tokens of the written forms of values. -/
def valuesTokens (e : Encoder) : List Value → List (List Token)
  | [] => []
  | v :: rest => e.valueTokens v :: e.valuesTokens rest

/-- The tokens of the written form of a tree. -/
def treeTokens (e : Encoder) : Tree → List Token
  | .literal v => e.valueTokens v
  | .reference path => pathTokens path
  | .call .sequence args => (e.treesTokens args).flatten
  | .call (.bind name) args => .name name :: .symbol .assign :: (e.treesTokens args).flatten
  | .call (.op operator) args => appliedTokens [.symbol operator.mark] (e.treesTokens args)
  | .call (.invoke path) args => appliedTokens (pathTokens path) (e.treesTokens args)
  | .call (.construct typeName) args => appliedTokens [.name typeName] (e.treesTokens args)
  | .call .list args => bracketedTokens (e.treesTokens args)

/-- The tokens of the written forms of trees. -/
def treesTokens (e : Encoder) : List Tree → List (List Token)
  | [] => []
  | t :: rest => e.treeTokens t :: e.treesTokens rest

end

theorem valuesTokens_eq_map (e : Encoder) (vs : List Value) :
    e.valuesTokens vs = vs.map e.valueTokens := by
  induction vs with
  | nil => rfl
  | cons v vs ih => rw [valuesTokens, ih, List.map_cons]

theorem treesTokens_eq_map (e : Encoder) (ts : List Tree) :
    e.treesTokens ts = ts.map e.treeTokens := by
  induction ts with
  | nil => rfl
  | cons t ts ih => rw [treesTokens, ih, List.map_cons]

/-! ## What stands apart from a term -/

/-- What may follow a term in a written form: nothing, a separator or something that closes. -/
def Apart (rest : List Char) : Prop := ∀ c ∈ rest.head?, c ∈ [' ', ',', ')', ']', '}']

namespace Apart

theorem nil : Apart [] := by intro c h; cases h

theorem cons {c : Char} {rest : List Char} (h : c ∈ [' ', ',', ')', ']', '}']) :
    Apart (c :: rest) := by
  intro d hd
  cases hd
  exact h

theorem endsWord {rest : List Char} (h : Apart rest) : EndsWord rest := by
  intro c hc
  have closing := h c hc
  simp only [List.mem_cons, List.not_mem_nil, or_false] at closing
  rcases closing with rfl | rfl | rfl | rfl | rfl <;> decide

theorem noPoint {rest : List Char} (h : Apart rest) : rest.head? ≠ some '.' := by
  intro point
  have closes := h '.' point
  revert closes
  decide

end Apart

theorem endsSymbol_cons {c : Char} {rest : List Char} (h : c ≠ '=' ∧ c ≠ '|' ∧ c ≠ '/') :
    EndsSymbol (c :: rest) := by
  intro d hd
  cases hd
  exact h

theorem endsWord_cons {c : Char} {rest : List Char} (h : Text.continuesName c = false) :
    EndsWord (c :: rest) := by
  intro d hd
  cases hd
  exact h

/-! ## Cutting the parts -/

/-- The text is cut into the tokens in front of anything that the condition admits. -/
def CutsInto (admits : List Char → Prop) (text : List Char) (ts : List Token) : Prop :=
  ∀ {rest : List Char} {more : List Token}, admits rest → Lexes rest more →
    Lexes (text ++ rest) (ts ++ more)

/-- Pieces that are cut one by one are cut as well when a separator stands between them. -/
theorem cutsInto_intercalate {admits : List Char → Prop} (separator : List Char)
    (mark : List Token) (separates : ∀ rest, admits (separator ++ rest))
    (separatorCut : ∀ {rest more}, Lexes rest more → Lexes (separator ++ rest) (mark ++ more))
    {α : Type} {text : α → List Char} {tokens : α → List Token} :
    ∀ {pieces : List α}, (∀ x ∈ pieces, CutsInto admits (text x) (tokens x)) →
      CutsInto admits (separator.intercalate (pieces.map text))
        (mark.intercalate (pieces.map tokens))
  | [], _ => fun _ more => by simpa using more
  | [x], each => fun hr more => by
      simpa using each x List.mem_cons_self hr more
  | x :: y :: pieces, each => fun hr more => by
      have tail := cutsInto_intercalate separator mark separates separatorCut
        (fun z hz => each z (List.mem_cons_of_mem x hz)) hr more
      have first := each x List.mem_cons_self (separates _) (separatorCut tail)
      simpa [List.intercalate_cons_cons, List.append_assoc] using first

theorem nil_intercalate {α : Type} (pieces : List (List α)) :
    ([] : List α).intercalate pieces = pieces.flatten := by
  induction pieces with
  | nil => rfl
  | cons p ps ih =>
      cases ps with
      | nil => simp
      | cons q qs => rw [List.intercalate_cons_cons, ih]; simp

/-- Terms with a space between them. -/
theorem cutsInto_spaced {α : Type} {text : α → List Char} {tokens : α → List Token}
    {pieces : List α} (each : ∀ x ∈ pieces, CutsInto Apart (text x) (tokens x)) :
    CutsInto Apart ([' '].intercalate (pieces.map text)) (pieces.map tokens).flatten := by
  rw [← nil_intercalate]
  exact cutsInto_intercalate [' '] [] (fun _ => Apart.cons (by decide))
    (fun more => Lexes.space more) each

/-- Arguments in parentheses behind a head. -/
theorem lexes_applied {α : Type} {head : List Char} {headTokens : List Token}
    (headCut : CutsInto (fun rest => rest.head? = some '(') head headTokens)
    {text : α → List Char} {tokens : α → List Token} {args : List α}
    (each : ∀ x ∈ args, CutsInto Apart (text x) (tokens x)) {rest : List Char} {more : List Token}
    (cut : Lexes rest more) :
    Lexes (applied head (args.map text) ++ rest)
      (appliedTokens headTokens (args.map tokens) ++ more) := by
  have close : Lexes (')' :: rest) (.symbol .rParen :: more) :=
    Lexes.solid .rParen rfl cut
  have inside := cutsInto_intercalate [',', ' '] [.symbol .comma]
    (fun _ => Apart.cons (by decide))
    (fun more => Lexes.solid .comma rfl (Lexes.space more)) each
    (Apart.cons (by decide)) close
  have whole := headCut rfl (Lexes.solid .lParen rfl inside)
  simpa [applied, appliedTokens, Symbol.spelling, List.append_assoc] using whole

/-- Terms in brackets. -/
theorem lexes_bracketed {α : Type} {text : α → List Char} {tokens : α → List Token}
    {items : List α} (each : ∀ x ∈ items, CutsInto Apart (text x) (tokens x)) {rest : List Char}
    {more : List Token} (cut : Lexes rest more) :
    Lexes (bracketed (items.map text) ++ rest) (bracketedTokens (items.map tokens) ++ more) := by
  have close : Lexes (']' :: rest) (.symbol .rBracket :: more) :=
    Lexes.solid .rBracket rfl cut
  have inside := cutsInto_spaced each (Apart.cons (by decide)) close
  have whole := Lexes.solid .lBracket rfl inside
  simpa [bracketed, bracketedTokens, Symbol.spelling, List.append_assoc] using whole

/-- A path in front of what is no part of a word. -/
theorem lexes_path {path : Path} (spelled : path.IsSpelled) {rest : List Char} {more : List Token}
    (ends : EndsWord rest) (cut : Lexes rest more) :
    Lexes (path.render.toList ++ rest) (pathTokens path ++ more) := by
  have each : ∀ name ∈ path.segments, CutsInto EndsWord name.toList [.name name] :=
    fun name h => Lexes.name (spelled.names name h)
  have whole := cutsInto_intercalate ['.'] [.symbol .dot]
    (fun _ => endsWord_cons (by decide)) (fun more => Lexes.solid .dot rfl more) each ends
    cut
  simpa [Path.render, pathTokens, String.toList_intercalate] using whole

/-- The parameters of a function. -/
theorem lexes_parameters {params : List String} (names : ∀ name ∈ params, IsName name)
    {rest : List Char} {more : List Token} (cut : Lexes rest more) :
    Lexes (parameters params ++ rest) (parameterTokens params ++ more) := by
  cases params with
  | nil => exact cut
  | cons first others =>
      have close : Lexes ('|' :: ' ' :: rest) (.symbol .pipe :: more) :=
        Lexes.symbol .pipe (fun _ => endsSymbol_cons (by decide)) (Lexes.space cut)
      have each : ∀ name ∈ first :: others, CutsInto EndsWord name.toList [.name name] :=
        fun name h => Lexes.name (names name h)
      have inside := cutsInto_intercalate [' '] []
        (fun _ => endsWord_cons (by decide)) (fun more => Lexes.space more) each
        (endsWord_cons (by decide)) close
      obtain ⟨c, cs, shape, starts⟩ := (names first List.mem_cons_self).toList_eq_cons
      have range := Text.range_of_startsName starts
      have plain : c ≠ '=' ∧ c ≠ '|' ∧ c ≠ '/' := by
        refine ⟨?_, ?_, ?_⟩ <;> (rintro rfl; revert range; decide)
      have opens : EndsSymbol
          ([' '].intercalate ((first :: others).map String.toList) ++ '|' :: ' ' :: rest) := by
        cases others with
        | nil => simpa [shape] using endsSymbol_cons plain
        | cons second others =>
            simpa [List.intercalate_cons_cons, shape] using endsSymbol_cons plain
      have whole := Lexes.symbol .pipe (fun _ => opens) inside
      simpa [parameters, parameterTokens, Symbol.spelling, nil_intercalate, ← List.flatMap_def,
        ← List.map_eq_flatMap] using whole

theorem toInt_natAbs_lt {i : Int64} (h : i ≠ Int64.minValue) :
    i.toInt.natAbs < 9223372036854775808 := by
  have low := Int64.le_toInt i
  have high := Int64.toInt_lt i
  have least : i.toInt ≠ -9223372036854775808 := fun eq =>
    h (Int64.toInt_inj.mp (eq.trans (by decide)))
  omega

/-- An integer, also the least one, which is written as a difference. -/
theorem lexes_integer (i : Int64) {rest : List Char} {more : List Token} (apart : Apart rest)
    (cut : Lexes rest more) : Lexes (integer i ++ rest) (integerTokens i ++ more) := by
  unfold integer integerTokens
  split
  · have close : Lexes (')' :: rest) (.symbol .rParen :: more) :=
      Lexes.solid .rParen rfl cut
    have second := Lexes.solid .comma rfl (Lexes.space (Lexes.digits (n := 1) (by decide)
      (endsWord_cons (by decide)) (by simp) close))
    have first := Lexes.solid .minus rfl (Lexes.digits (n := 9223372036854775807) (by decide)
      (endsWord_cons (by decide)) (by simp) second)
    have whole := Lexes.solid .minus rfl (Lexes.solid .lParen rfl first)
    have text : leastInteger = ['-', '(', '-'] ++ (Nat.toDigits 10 9223372036854775807 ++
        ([',', ' '] ++ (Nat.toDigits 10 1 ++ [')']))) := by decide +kernel
    rw [text]
    simpa [Symbol.spelling, numeral, List.append_assoc] using whole
  · rename_i notLeast
    have digits := Lexes.digits (toInt_natAbs_lt notLeast) apart.endsWord apart.noPoint cut
    unfold Number.integer
    split
    · exact Lexes.solid .minus rfl digits
    · exact digits

/-! ## Cutting written forms -/

mutual

/-- The written form of a value is cut into its tokens. -/
theorem lexes_value (e : Encoder) : ∀ v : Value, v.IsSpelled e.registry →
    CutsInto Apart (e.value v) (e.valueTokens v)
  | .bool b, _, _, _, apart, cut => by
      have named : IsName (if b then "true" else "false") := by cases b <;> decide +kernel
      rw [value, valueTokens]
      exact Lexes.name named apart.endsWord cut
  | .int i, _, _, _, apart, cut => lexes_integer i apart cut
  | .float _, spelled, _, _, _, _ => by
      rw [Value.IsSpelled] at spelled
      exact spelled.elim
  | .str s, _, _, _, _, cut => by
      have quoted := Lexes.quote s.toList cut
      rw [String.ofList_toList] at quoted
      exact quoted
  | .list items, spelled, _, _, _, cut => by
      rw [Value.IsSpelled] at spelled
      rw [value, valueTokens, values_eq_map, valuesTokens_eq_map]
      exact lexes_bracketed (lexes_values e items spelled) cut
  | .closure params body _, spelled, rest, more, _, cut => by
      rw [Value.IsSpelled] at spelled
      have close : Lexes ('}' :: rest) (.symbol .rBrace :: more) :=
        Lexes.solid .rBrace rfl cut
      have inside := lexes_tree e body spelled.2 (Apart.cons (by decide)) close
      have whole := Lexes.solid .lBrace rfl (lexes_parameters spelled.1 inside)
      rw [value, valueTokens]
      simpa [Symbol.spelling, List.append_assoc] using whole
  | .native b, _, _, _, _, cut => by
      have quoted := Lexes.quote ("<native " ++ b.name ++ ">").toList cut
      rw [String.ofList_toList] at quoted
      rw [value, valueTokens]
      exact quoted
  | .handle kind _ fields, spelled, _, _, _, cut => by
      rw [Value.IsSpelled] at spelled
      rw [value, valueTokens]
      cases known : e.registry.ofKind? kind with
      | none =>
          have quoted := Lexes.quote ("<" ++ kind.label ++ ">").toList cut
          rw [String.ofList_toList] at quoted
          exact quoted
      | some type =>
          obtain ⟨named, fieldsSpelled⟩ := spelled type known
          simp only [values_eq_map, valuesTokens_eq_map]
          exact lexes_applied (fun open_ more => Lexes.name named (fun c hc => by
            rw [open_] at hc; cases hc; decide) more) (lexes_values e fields fieldsSpelled) cut
  | .object o, _, _, _, _, cut => by
      have quoted := Lexes.quote (e.describe o).toList cut
      rw [String.ofList_toList] at quoted
      rw [value, valueTokens]
      exact quoted

/-- The written forms of values are cut into their tokens. -/
theorem lexes_values (e : Encoder) : ∀ vs : List Value, Value.AreSpelled e.registry vs →
    ∀ v ∈ vs, CutsInto Apart (e.value v) (e.valueTokens v)
  | [], _, _, mem => nomatch mem
  | w :: rest, spelled, v, mem => by
      rw [Value.AreSpelled] at spelled
      cases mem with
      | head => exact lexes_value e w spelled.1
      | tail _ mem => exact lexes_values e rest spelled.2 v mem

/-- The written form of a tree is cut into its tokens. -/
theorem lexes_tree (e : Encoder) : ∀ t : Tree, t.IsSpelled e.registry →
    CutsInto Apart (e.tree t) (e.treeTokens t)
  | .literal v, spelled, _, _, apart, cut => by
      rw [Tree.IsSpelled] at spelled
      rw [tree, treeTokens]
      exact lexes_value e v spelled apart cut
  | .reference path, spelled, _, _, apart, cut => by
      rw [Tree.IsSpelled] at spelled
      rw [tree, treeTokens]
      exact lexes_path spelled apart.endsWord cut
  | .call head args, spelled, rest, more, apart, cut => by
      rw [Tree.IsSpelled] at spelled
      obtain ⟨headSpelled, argsSpelled⟩ := spelled
      have each := lexes_trees e args argsSpelled
      cases head with
      | sequence =>
          rw [tree, treeTokens, trees_eq_map, treesTokens_eq_map]
          exact cutsInto_spaced each apart cut
      | bind name =>
          have bound := cutsInto_spaced each apart cut
          have assign := Lexes.symbol .assign (fun _ => endsSymbol_cons (by decide))
            (Lexes.space bound)
          have whole := Lexes.name headSpelled (endsWord_cons (by decide)) (Lexes.space assign)
          rw [tree, treeTokens, trees_eq_map, treesTokens_eq_map]
          simpa [Symbol.spelling, List.append_assoc] using whole
      | op operator =>
          rw [tree, treeTokens, trees_eq_map, treesTokens_eq_map, ← Operator.mark_spelling]
          exact lexes_applied (fun open_ more => Lexes.symbol operator.mark (fun _ c hc => by
            rw [open_] at hc; cases hc; decide) more) each cut
      | invoke path =>
          rw [tree, treeTokens, trees_eq_map, treesTokens_eq_map]
          exact lexes_applied (fun open_ more => lexes_path headSpelled (fun c hc => by
            rw [open_] at hc; cases hc; decide) more) each cut
      | construct typeName =>
          rw [tree, treeTokens, trees_eq_map, treesTokens_eq_map]
          exact lexes_applied (fun open_ more => Lexes.name headSpelled (fun c hc => by
            rw [open_] at hc; cases hc; decide) more) each cut
      | list =>
          rw [tree, treeTokens, trees_eq_map, treesTokens_eq_map]
          exact lexes_bracketed each cut

/-- The written forms of trees are cut into their tokens. -/
theorem lexes_trees (e : Encoder) : ∀ ts : List Tree, Tree.AreSpelled e.registry ts →
    ∀ t ∈ ts, CutsInto Apart (e.tree t) (e.treeTokens t)
  | [], _, _, mem => nomatch mem
  | u :: rest, spelled, t, mem => by
      rw [Tree.AreSpelled] at spelled
      cases mem with
      | head => exact lexes_tree e u spelled.1
      | tail _ mem => exact lexes_trees e rest spelled.2 t mem

end

/-! ## Line ends

A written form has no line end outside of a quoted text. -/

theorem newline_not_mem_intercalate {mark : Symbol} :
    ∀ {parts : List (List Token)}, (∀ ts ∈ parts, Token.newline ∉ ts) →
      Token.newline ∉ [.symbol mark].intercalate parts
  | [], _ => by simp
  | [ts], absent => by simpa using absent
  | ts :: us :: parts, absent => by
      have tail : Token.newline ∉ [.symbol mark].intercalate (us :: parts) :=
        newline_not_mem_intercalate fun vs h => absent vs (List.mem_cons_of_mem ts h)
      rw [List.intercalate_cons_cons]
      simp only [List.mem_append, List.mem_singleton, reduceCtorEq, or_false, not_or]
      exact ⟨absent ts List.mem_cons_self, tail⟩

theorem newline_not_mem_flatten {parts : List (List Token)}
    (absent : ∀ ts ∈ parts, Token.newline ∉ ts) : Token.newline ∉ parts.flatten := by
  rintro mem
  obtain ⟨ts, among, inside⟩ := List.mem_flatten.mp mem
  exact absent ts among inside

theorem newline_not_mem_pathTokens (p : Path) : Token.newline ∉ pathTokens p := by
  refine newline_not_mem_intercalate fun ts h => ?_
  obtain ⟨name, -, rfl⟩ := List.mem_map.mp h
  simp

theorem newline_not_mem_applied {head : List Token} {args : List (List Token)}
    (absentHead : Token.newline ∉ head) (absent : ∀ ts ∈ args, Token.newline ∉ ts) :
    Token.newline ∉ appliedTokens head args := by
  simp only [appliedTokens, List.mem_append, List.mem_cons, reduceCtorEq, false_or,
    List.not_mem_nil, or_false, not_or]
  exact ⟨absentHead, newline_not_mem_intercalate absent⟩

theorem newline_not_mem_bracketed {items : List (List Token)}
    (absent : ∀ ts ∈ items, Token.newline ∉ ts) : Token.newline ∉ bracketedTokens items := by
  simp only [bracketedTokens, List.mem_append, List.mem_cons, reduceCtorEq, false_or,
    List.not_mem_nil, or_false]
  exact newline_not_mem_flatten absent

mutual

theorem newline_not_mem_value (e : Encoder) : ∀ v : Value, Token.newline ∉ e.valueTokens v
  | .bool _ | .float _ | .str _ | .native _ | .object _ => by simp [valueTokens]
  | .int i => by
      simp only [valueTokens, integerTokens, numeral]
      split
      · simp
      · split <;> simp
  | .list items => by
      rw [valueTokens]
      exact newline_not_mem_bracketed (newline_not_mem_values e items)
  | .closure params body _ => by
      have inside := newline_not_mem_tree e body
      have header : Token.newline ∉ parameterTokens params := by
        unfold parameterTokens
        split <;> simp
      simp [valueTokens, header, inside]
  | .handle kind _ fields => by
      rw [valueTokens]
      split
      · exact newline_not_mem_applied (by simp) (newline_not_mem_values e fields)
      · simp

theorem newline_not_mem_values (e : Encoder) :
    ∀ vs : List Value, ∀ ts ∈ e.valuesTokens vs, Token.newline ∉ ts
  | [], _, h => by simp [valuesTokens] at h
  | v :: rest, ts, h => by
      rw [valuesTokens] at h
      cases h with
      | head => exact newline_not_mem_value e v
      | tail _ h => exact newline_not_mem_values e rest ts h

theorem newline_not_mem_tree (e : Encoder) : ∀ t : Tree, Token.newline ∉ e.treeTokens t
  | .literal v => by
      rw [treeTokens]
      exact newline_not_mem_value e v
  | .reference path => by
      rw [treeTokens]
      exact newline_not_mem_pathTokens path
  | .call head args => by
      have each := newline_not_mem_trees e args
      cases head <;> rw [treeTokens]
      case sequence => exact newline_not_mem_flatten each
      case bind name => simpa using newline_not_mem_flatten each
      case op operator => exact newline_not_mem_applied (by simp) each
      case invoke path => exact newline_not_mem_applied (newline_not_mem_pathTokens path) each
      case construct typeName => exact newline_not_mem_applied (by simp) each
      case list => exact newline_not_mem_bracketed each

theorem newline_not_mem_trees (e : Encoder) :
    ∀ ts : List Tree, ∀ us ∈ e.treesTokens ts, Token.newline ∉ us
  | [], _, h => by simp [treesTokens] at h
  | t :: rest, us, h => by
      rw [treesTokens] at h
      cases h with
      | head => exact newline_not_mem_tree e t
      | tail _ h => exact newline_not_mem_trees e rest us h

end

end Encoder

namespace Script

open Encoder (Apart CutsInto)

/-! ## Single tokens -/

/-- The characters with which a token is written. -/
def Token.spelling : Token → List Char
  | .int i => Number.integer i.toInt
  | .float x => Number.Layout.script.float x
  | .str text => Text.Quoted.quote text.toList
  | .name text => text.toList
  | .symbol mark => mark.spelling
  | .newline => ['\n']
  | .finish => []

/-- Whether a token is none of the floating point numbers and is one that a text can hold: numerals
carry no sign, names are made of certain characters, and the end is not written. -/
def Token.IsSpelled : Token → Prop
  | .int i => 0 ≤ i.toInt
  | .float _ => False
  | .name text => IsName text
  | .finish => False
  | _ => True

instance : DecidablePred Token.IsSpelled
  | .int i => inferInstanceAs (Decidable (0 ≤ i.toInt))
  | .name text => inferInstanceAs (Decidable (IsName text))
  | .float _ | .finish => inferInstanceAs (Decidable False)
  | .str _ | .symbol _ | .newline => inferInstanceAs (Decidable True)

theorem endsSymbol_of_apart {rest : List Char} (apart : Apart rest) : EndsSymbol rest := by
  intro c next
  have among := apart c next
  simp only [List.mem_cons, List.not_mem_nil, or_false] at among
  rcases among with rfl | rfl | rfl | rfl | rfl <;> decide

/-- A token is cut off in front of anything that stands apart. -/
theorem Token.IsSpelled.cutsInto {t : Token} (h : t.IsSpelled) : CutsInto Apart t.spelling [t] := by
  intro rest more apart cut
  cases t with
  | int i =>
      have positive : 0 ≤ i.toInt := h
      have small : i.toInt.natAbs < 9223372036854775808 := by
        have high := Int64.toInt_lt i
        omega
      have digits := Lexes.digits small apart.endsWord apart.noPoint cut
      rw [spelling, Number.integer, if_neg (Int.not_lt.mpr positive)]
      have same : Int64.ofNat i.toInt.natAbs = i := by
        rw [← Int64.ofInt_eq_ofNat, Int.natAbs_of_nonneg positive, Int64.ofInt_toInt]
      rwa [same] at digits
  | float x => exact h.elim
  | str text =>
      have quoted := Lexes.quote text.toList cut
      rwa [String.ofList_toList] at quoted
  | name text => exact Lexes.name h apart.endsWord cut
  | symbol mark => exact Lexes.symbol mark (fun _ => endsSymbol_of_apart apart) cut
  | newline => exact Lexes.newline cut
  | finish => exact h.elim

end Script

end PeerScript
