import Mathlib.Data.List.Forall2
import PeerScript.Proofs.Cursors
import PeerScript.Proofs.Scopes
import PeerScript.Proofs.Spelling
import PeerScript.Script.Language

/-!
# Reading terms of the compact language

A parser `Reads` some tokens when it succeeds in front of them, whatever follows them, and leaves
what follows.  What is known of the names and the serial number in front of the tokens, and what of
those behind them, are parameters.  There is one law for each construct of the grammar, over the
readings of its parts.
-/

set_option autoImplicit false

namespace PeerScript.Script

open Text (Position)

namespace Parser

/-- What is known of the names in view and the next serial number. -/
abbrev Invariant : Type := List (List String) → Nat → Prop

/-- Only the next serial number is known. -/
def Numbered (serial : Nat) : Invariant := fun _ next => next = serial

/-- What is known when the names have changed. -/
def Invariant.behind (I : Invariant) (change : List (List String) → List (List String)) :
    Invariant :=
  fun names serial => ∃ before, I before serial ∧ change before = names

/-- A cursor in front of the given tokens. -/
structure Stands (I : Invariant) (c : Cursor) (ts : List Token) : Prop where
  flat : c.brackets = 0
  shows : c.rest.map Placed.token = ts
  keeps : I c.names c.serial

namespace Stands

variable {I : Invariant} {c : Cursor} {t u : Token} {ts : List Token}

theorem settle (h : Stands I c ts) : settle c = .ok ((), c) := by
  change Except.ok _ = _
  simp [h.flat]

theorem here (h : Stands I c (t :: ts)) :
    ∃ first, here c = .ok (first, c) ∧ first.token = t := by
  obtain ⟨first, rest, shape, shown, -⟩ := List.map_eq_cons_iff.mp h.shows
  refine ⟨first, ?_, shown⟩
  change Except.ok (c.rest.headD _, c) = _
  rw [shape]
  rfl

theorem peek (h : Stands I c (t :: ts)) : peek c = .ok (t, c) := by
  obtain ⟨first, found, rfl⟩ := h.here
  unfold Parser.peek
  rw [bind_of_ok h.settle, bind_of_ok found]
  rfl

/-- The next token is taken, unless it is the last one. -/
theorem advance (h : Stands I c (t :: u :: ts)) :
    ∃ first c', advance c = .ok (first, c') ∧ first.token = t ∧ Stands I c' (u :: ts) := by
  obtain ⟨first, rest, shape, shown, more⟩ := List.map_eq_cons_iff.mp h.shows
  obtain ⟨second, rest, rfl, -⟩ := List.map_eq_cons_iff.mp more
  have found : Parser.here c = .ok (first, c) := by
    change Except.ok (c.rest.headD _, c) = _
    rw [shape]
    rfl
  refine ⟨first, { c with rest := second :: rest }, ?_, shown, h.flat, more, h.keeps⟩
  unfold Parser.advance
  rw [bind_of_ok h.settle, bind_of_ok found]
  change Except.ok _ = _
  simp [shape]

theorem check (mark : Symbol) (h : Stands I c (.symbol mark :: ts)) :
    check mark c = .ok (true, c) := by
  unfold Parser.check
  rw [bind_of_ok h.peek]
  change Except.ok (mark == mark, c) = _
  rw [beq_self_eq_true]

theorem check_of_ne {mark : Symbol} (h : Stands I c (t :: ts)) (ne : t ≠ .symbol mark) :
    Parser.check mark c = .ok (false, c) := by
  unfold Parser.check
  rw [bind_of_ok h.peek]
  cases t with
  | symbol other =>
      have differs : other ≠ mark := fun same => ne (congrArg Token.symbol same)
      change Except.ok (other == mark, c) = _
      rw [beq_false_of_ne differs]
  | _ => rfl

theorem remaining (h : Stands I c ts) : remaining c = .ok (ts.length, c) := by
  change Except.ok (c.rest.length, c) = _
  rw [← h.shows, List.length_map]

theorem expect {mark : Symbol} (what : String) (h : Stands I c (.symbol mark :: u :: ts)) :
    ∃ c', expect mark what c = .ok ((), c') ∧ Stands I c' (u :: ts) := by
  obtain ⟨first, c', taken, -, next⟩ := h.advance
  refine ⟨c', ?_, next⟩
  unfold Parser.expect
  rw [bind_of_ok (h.check mark)]
  simp only [if_true]
  rw [bind_of_ok taken]
  rfl

end Stands

/-- What may follow a term: nothing that goes on with a path. -/
def Follows (more : List Token) : Prop :=
  ∃ t rest, more = t :: rest ∧ t ≠ .symbol .dot ∧ t ≠ .symbol .assign ∧ t ≠ .symbol .lParen

/-- The parser reads the tokens in front of anything that may follow a term.  What is known of the
names and the number in front of them becomes what is known of them behind. -/
def ReadsTo (I J : Invariant) (p : Parser Tree) (ts : List Token) (result : Tree → Prop) : Prop :=
  ∀ ⦃c : Cursor⦄ ⦃more : List Token⦄, Follows more → Stands I c (ts ++ more) →
    ∃ tree c', p c = .ok (tree, c') ∧ result tree ∧ Stands J c' more

/-- The parser reads the tokens and keeps what is known. -/
abbrev Reads (I : Invariant) (p : Parser Tree) (ts : List Token) (result : Tree → Prop) : Prop :=
  ReadsTo I I p ts result

theorem Stands.mono {I J : Invariant} {c : Cursor} {ts : List Token} (h : Stands I c ts)
    (weaker : ∀ names serial, I names serial → J names serial) : Stands J c ts :=
  ⟨h.flat, h.shows, weaker _ _ h.keeps⟩

theorem ReadsTo.mono {I J : Invariant} {p : Parser Tree} {ts : List Token}
    {result result' : Tree → Prop} (h : ReadsTo I J p ts result)
    (weaker : ∀ tree, result tree → result' tree) : ReadsTo I J p ts result' := by
  intro c more follows stands
  obtain ⟨tree, c', read, right, stands'⟩ := h follows stands
  exact ⟨tree, c', read, weaker tree right, stands'⟩

/-- More may be known in front, and less behind. -/
theorem ReadsTo.change {I I' J J' : Invariant} {p : Parser Tree} {ts : List Token}
    {result : Tree → Prop} (h : ReadsTo I J p ts result)
    (front : ∀ names serial, I' names serial → I names serial)
    (back : ∀ names serial, J names serial → J' names serial) : ReadsTo I' J' p ts result := by
  intro c more follows stands
  obtain ⟨tree, c', read, right, stands'⟩ := h follows (stands.mono front)
  exact ⟨tree, c', read, right, stands'.mono back⟩

end Parser

namespace Pi

open PeerScript.Script.Parser
open Encoder (pathTokens appliedTokens bracketedTokens parameterTokens)

/-- Whether a term can begin with a token. -/
def beginsTerm : Token → Bool
  | .int _ | .float _ | .str _ | .name _ => true
  | .symbol mark => mark == .lBracket || mark == .lBrace || isOperator mark
  | _ => false

/-- Tokens of a term, as far as their first one shows. -/
def Begins (ts : List Token) : Prop := ∃ t rest, ts = t :: rest ∧ beginsTerm t = true

theorem ne_of_beginsTerm {t : Token} (begins : beginsTerm t = true) {mark : Symbol}
    (no : beginsTerm (.symbol mark) = false) : t ≠ .symbol mark := by
  rintro rfl
  rw [begins] at no
  exact Bool.noConfusion no

theorem Begins.follows {ts more : List Token} (h : Begins ts) : Follows (ts ++ more) := by
  obtain ⟨t, rest, rfl, begins⟩ := h
  exact ⟨t, rest ++ more, rfl, ne_of_beginsTerm begins rfl, ne_of_beginsTerm begins rfl,
    ne_of_beginsTerm begins rfl⟩

theorem follows_symbol {mark : Symbol} {more : List Token}
    (h : mark ≠ .dot ∧ mark ≠ .assign ∧ mark ≠ .lParen) : Follows (.symbol mark :: more) :=
  ⟨_, _, rfl, by simpa using h⟩

section Lists

variable {I J K : Invariant} {term : Parser Tree} {α : Type} {tokens : α → List Token}
  {result : α → Tree → Prop}

/-! ## Terms one after another -/

variable (term tokens result) in
/-- Terms are read one after another, each of them with what is known behind the one in front of
it. -/
inductive ReadsAll : Invariant → List α → Invariant → Prop
  | nil {I : Invariant} : ReadsAll I [] I
  | cons {I J K : Invariant} {x : α} {xs : List α} :
      ReadsTo I J term (tokens x) (result x) → ReadsAll J xs K → ReadsAll I (x :: xs) K

theorem ReadsAll.of_forall {xs : List α} (each : ∀ x ∈ xs, Reads I term (tokens x) (result x)) :
    ReadsAll term tokens result I xs I := by
  induction xs with
  | nil => exact .nil
  | cons x xs ih =>
      obtain ⟨first, others⟩ := List.forall_mem_cons.mp each
      exact .cons first (ih others)

/-- What follows a term in a list of terms follows a term. -/
theorem follows_terms {xs : List α} (begins : ∀ x ∈ xs, Begins (tokens x)) {more : List Token}
    (h : Follows more) : Follows ((xs.map tokens).flatten ++ more) := by
  cases xs with
  | nil => exact h
  | cons x xs =>
      rw [List.map_cons, List.flatten_cons, List.append_assoc]
      exact (begins x List.mem_cons_self).follows

theorem termsUntil_reads (close : Symbol) (closes : beginsTerm (.symbol close) = false)
    (plain : close ≠ .dot ∧ close ≠ .assign ∧ close ≠ .lParen) (opening : Position)
    (delimiter : String) {xs : List α} (each : ReadsAll term tokens result I xs J)
    (begins : ∀ x ∈ xs, Begins (tokens x)) {allowance : Nat} (enough : xs.length < allowance)
    {c : Cursor} {more : List Token} (follows : Follows more)
    (stands : Stands I c ((xs.map tokens).flatten ++ .symbol close :: more)) :
    ∃ trees c', termsUntil term close opening delimiter allowance c = .ok (trees, c') ∧
      List.Forall₂ result xs trees ∧ Stands J c' more := by
  induction each generalizing allowance c with
  | nil =>
      obtain ⟨allowance, rfl⟩ := Nat.exists_eq_succ_of_ne_zero (Nat.ne_of_gt enough)
      obtain ⟨t, rest, rfl, -⟩ := follows
      obtain ⟨_, c', taken, -, next⟩ := stands.advance
      refine ⟨[], c', ?_, .nil, next⟩
      rw [termsUntil, bind_of_ok (stands.check close)]
      simp only [if_true]
      rw [bind_of_ok taken]
      rfl
  | @cons _ _ _ x xs reads _ ih =>
      obtain ⟨allowance, rfl⟩ :=
        Nat.exists_eq_succ_of_ne_zero (Nat.ne_of_gt (Nat.zero_lt_of_lt enough))
      obtain ⟨t, tail, shape, starts⟩ := begins x List.mem_cons_self
      have othersBegin : ∀ y ∈ xs, Begins (tokens y) :=
        fun y h => begins y (List.mem_cons_of_mem x h)
      rw [List.map_cons, List.flatten_cons, List.append_assoc] at stands
      obtain ⟨tree, c₁, first, right, stands₁⟩ :=
        reads (follows_terms othersBegin (follows_symbol plain)) stands
      obtain ⟨trees, c₂, rest, rights, stands₂⟩ :=
        ih othersBegin (Nat.lt_of_succ_lt_succ enough) stands₁
      refine ⟨tree :: trees, c₂, ?_, .cons right rights, stands₂⟩
      rw [shape, List.cons_append] at stands
      rw [termsUntil, bind_of_ok (stands.check_of_ne (ne_of_beginsTerm starts closes))]
      simp only [Bool.false_eq_true, if_false]
      rw [bind_of_ok stands.peek]
      have goesOn : (do
          let first ← term
          let rest ← termsUntil term close opening delimiter allowance
          return first :: rest : Parser (List Tree)) c = .ok (tree :: trees, c₂) := by
        rw [bind_of_ok first, bind_of_ok rest]
        rfl
      cases t <;> first | exact goesOn | exact nomatch starts

/-! ## Arguments -/

theorem argsAfter_reads {xs : List α} (each : ReadsAll term tokens result I xs J)
    (nonempty : xs ≠ []) {allowance : Nat} (enough : xs.length ≤ allowance) {c : Cursor}
    {more : List Token} (follows : Follows more)
    (stands :
    Stands I c ([.symbol .comma].intercalate (xs.map tokens) ++ .symbol .rParen :: more)) :
    ∃ trees c', argsAfter term allowance c = .ok (trees, c') ∧
      List.Forall₂ result xs trees ∧ Stands J c' more := by
  induction each generalizing allowance c with
  | nil => exact absurd rfl nonempty
  | @cons _ _ _ x xs reads others ih =>
      obtain ⟨allowance, rfl⟩ :=
        Nat.exists_eq_succ_of_ne_zero (Nat.ne_of_gt (Nat.zero_lt_of_lt enough))
      cases xs with
      | nil =>
          cases others
          simp only [List.map_cons, List.map_nil, List.intercalate_singleton] at stands
          obtain ⟨tree, c₁, first, right, stands₁⟩ := reads (follows_symbol (by decide)) stands
          obtain ⟨t, rest, rfl, -⟩ := follows
          obtain ⟨_, c₂, taken, -, stands₂⟩ := stands₁.advance
          refine ⟨[tree], c₂, ?_, .cons right .nil, stands₂⟩
          rw [argsAfter, bind_of_ok first, bind_of_ok stands₁.peek]
          simp only
          rw [bind_of_ok taken]
          rfl
      | cons y xs =>
          simp only [List.map_cons, List.intercalate_cons_cons, List.append_assoc, List.cons_append,
            List.nil_append] at stands
          obtain ⟨tree, c₁, first, right, stands₁⟩ := reads (follows_symbol (by decide)) stands
          have tail : ∃ u rest, [.symbol .comma].intercalate (tokens y :: xs.map tokens) ++
              .symbol .rParen :: more = u :: rest := List.exists_cons_of_ne_nil (by simp)
          obtain ⟨u, rest, shape⟩ := tail
          rw [shape] at stands₁
          obtain ⟨_, c₂, taken, -, stands₂⟩ := stands₁.advance
          rw [← shape] at stands₂
          obtain ⟨trees, c₃, read, rights, stands₃⟩ := ih (List.cons_ne_nil y xs)
            (Nat.le_of_succ_le_succ enough) stands₂
          refine ⟨tree :: trees, c₃, ?_, .cons right rights, stands₃⟩
          rw [argsAfter, bind_of_ok first, bind_of_ok stands₁.peek]
          simp only
          rw [bind_of_ok taken, bind_of_ok read]
          rfl

theorem length_le_flatten {xs : List α} (begins : ∀ x ∈ xs, Begins (tokens x)) :
    xs.length ≤ (xs.map tokens).flatten.length := by
  induction xs with
  | nil => exact Nat.le_refl 0
  | cons x xs ih =>
      obtain ⟨t, rest, shape, -⟩ := begins x List.mem_cons_self
      have others := ih fun y h => begins y (List.mem_cons_of_mem x h)
      rw [List.map_cons, List.flatten_cons, shape, List.length_append, List.length_cons,
        List.length_cons]
      omega

theorem length_le_intercalate {xs : List α} (begins : ∀ x ∈ xs, Begins (tokens x))
    (mark : Token) : xs.length ≤ ([mark].intercalate (xs.map tokens)).length := by
  have pieces : ∀ parts : List (List Token),
      parts.flatten.length ≤ ([mark].intercalate parts).length := by
    intro parts
    induction parts with
    | nil => exact Nat.le_refl 0
    | cons p ps ih =>
        cases ps with
        | nil => simp
        | cons q qs =>
            rw [List.intercalate_cons_cons]
            simp only [List.flatten_cons, List.length_append, List.length_cons, List.length_nil]
              at ih ⊢
            omega
  exact Nat.le_trans (length_le_flatten begins) (pieces _)

theorem args_reads {xs : List α} (each : ReadsAll term tokens result I xs J)
    (begins : ∀ x ∈ xs, Begins (tokens x)) {c : Cursor} {more : List Token} (follows : Follows more)
    (stands : Stands I c (.symbol .lParen ::
      ([.symbol .comma].intercalate (xs.map tokens) ++ .symbol .rParen :: more))) :
    ∃ trees c', args term c = .ok (trees, c') ∧ List.Forall₂ result xs trees ∧
      Stands J c' more := by
  cases xs with
  | nil =>
      cases each
      rw [List.map_nil, List.intercalate_nil, List.nil_append] at stands
      obtain ⟨c₁, opened, stands₁⟩ := stands.expect "'('"
      obtain ⟨t, rest, rfl, -⟩ := follows
      obtain ⟨_, c₂, taken, -, stands₂⟩ := stands₁.advance
      refine ⟨[], c₂, ?_, .nil, stands₂⟩
      rw [args, bind_of_ok opened, bind_of_ok (stands₁.check .rParen)]
      simp only [if_true]
      rw [bind_of_ok taken]
      rfl
  | cons x xs =>
      obtain ⟨t, tail, shape, starts⟩ := begins x List.mem_cons_self
      have head : ∃ tail', [.symbol .comma].intercalate ((x :: xs).map tokens) ++
          .symbol .rParen :: more = t :: tail' := by
        cases xs <;> simp [shape]
      obtain ⟨tail', inside⟩ := head
      rw [inside] at stands
      obtain ⟨c₁, opened, stands₁⟩ := stands.expect "'('"
      have noParen : t ≠ .symbol .rParen := ne_of_beginsTerm starts rfl
      have noClose := stands₁.check_of_ne noParen
      rw [← inside] at stands₁
      have enough : (x :: xs).length ≤ ([.symbol .comma].intercalate ((x :: xs).map tokens) ++
          .symbol .rParen :: more).length := by
        have := length_le_intercalate begins (.symbol .comma)
        rw [List.length_append]
        omega
      obtain ⟨trees, c₂, read, rights, stands₂⟩ :=
        argsAfter_reads each (List.cons_ne_nil x xs) enough follows stands₁
      refine ⟨trees, c₂, ?_, rights, stands₂⟩
      rw [args, bind_of_ok opened, bind_of_ok noClose]
      simp only [Bool.false_eq_true, if_false]
      rw [bind_of_ok stands₁.remaining]
      exact read

/-! ## The constructs of the grammar -/

variable (ctx : Context)

/-- What a token stands for that is a term by itself. -/
def constant? : Token → Option Value
  | .int i => some (.int i)
  | .float x => some (.float x)
  | .str text => some (.str text)
  | .name "true" => some (.bool true)
  | .name "false" => some (.bool false)
  | _ => none

/-- What a numeral stands for behind a minus. -/
def negated? : Token → Option Value
  | .int i => some (.int (-i))
  | .float x => some (.float (-x))
  | _ => none

theorem constant?_bool (b : Bool) :
    constant? (.name (if b then "true" else "false")) = some (.bool b) := by
  cases b <;> rfl

theorem literal_reads {t : Token} {v : Value} (constant : constant? t = some v) :
    Reads I (termWith ctx term) [t] (· = .literal v) := by
  rintro c more ⟨next, rest, rfl, -⟩ stands
  obtain ⟨first, c', taken, shown, stands'⟩ := stands.advance
  refine ⟨.literal v, c', ?_, rfl, stands'⟩
  rw [termWith, bind_of_ok taken]
  unfold constant? at constant
  split at constant <;> cases constant <;> simp only [shown] <;> rfl

theorem negative_reads {t : Token} {v : Value} (negated : negated? t = some v) :
    Reads I (termWith ctx term) [.symbol .minus, t] (· = .literal v) := by
  rintro c more ⟨next, rest, rfl, -⟩ stands
  obtain ⟨first, c₁, taken, shown, stands₁⟩ := stands.advance
  obtain ⟨_, c₂, taken', -, stands₂⟩ := stands₁.advance
  refine ⟨.literal v, c₂, ?_, rfl, stands₂⟩
  rw [termWith, bind_of_ok taken]
  simp only [shown]
  rw [bind_of_ok stands₁.peek]
  unfold negated? at negated
  split at negated
  · cases negated
    exact (bind_of_ok taken').trans rfl
  · cases negated
    exact (bind_of_ok taken').trans rfl
  · cases negated

/-- Terms in brackets become a list. -/
theorem list_reads {xs : List α} (each : ReadsAll term tokens result I xs J)
    (begins : ∀ x ∈ xs, Begins (tokens x)) :
    ReadsTo I J (termWith ctx term) (bracketedTokens (xs.map tokens))
      fun tree => ∃ items, List.Forall₂ result xs items ∧ tree = Parser.list items := by
  intro c more follows stands
  rw [bracketedTokens, List.cons_append, List.append_assoc] at stands
  obtain ⟨u, tail, shape⟩ := List.exists_cons_of_ne_nil
    (show (xs.map tokens).flatten ++ ([.symbol .rBracket] ++ more) ≠ [] by simp)
  rw [shape] at stands
  obtain ⟨first, c₁, taken, shown, stands₁⟩ := stands.advance
  rw [← shape] at stands₁
  have enough : xs.length <
      ((xs.map tokens).flatten ++ ([Token.symbol .rBracket] ++ more)).length := by
    have := length_le_flatten begins
    simp only [List.length_append, List.length_cons, List.length_nil]
    omega
  obtain ⟨items, c₂, read, rights, stands₂⟩ :=
    termsUntil_reads .rBracket rfl (by decide) first.place "[" each begins enough follows
      stands₁
  refine ⟨Parser.list items, c₂, ?_, ⟨items, rights, rfl⟩, stands₂⟩
  rw [termWith, bind_of_ok taken]
  simp only [shown]
  rw [bind_of_ok stands₁.remaining, bind_of_ok read]
  rfl

/-- An operator in front of as many operands as it takes. -/
theorem op_reads {mark : Symbol} {operator : Operator} {xs : List α}
    (each : ReadsAll term tokens result I xs J) (begins : ∀ x ∈ xs, Begins (tokens x))
    (heads : isOperator mark = true) (fits : operatorFor mark xs.length = .ok operator) :
    ReadsTo I J (termWith ctx term) (appliedTokens [.symbol mark] (xs.map tokens))
      fun tree => ∃ operands, List.Forall₂ result xs operands ∧ tree = .op operator operands := by
  intro c more follows stands
  simp only [appliedTokens, List.cons_append, List.append_assoc, List.nil_append] at stands
  obtain ⟨first, c₁, taken, shown, stands₁⟩ := stands.advance
  obtain ⟨operands, c₂, read, rights, stands₂⟩ := args_reads each begins follows stands₁
  have length : operands.length = xs.length := rights.length_eq.symm
  have applies : application term mark first.place c₁ = .ok (.op operator operands, c₂) := by
    rw [application, bind_of_ok (stands₁.check .lParen)]
    simp only [if_true]
    rw [bind_of_ok read, length, fits]
    rfl
  refine ⟨.op operator operands, c₂, ?_, ⟨operands, rights, rfl⟩, stands₂⟩
  rw [termWith, bind_of_ok taken]
  simp only [shown]
  -- A minus is looked at once more, since it may also stand in front of a numeral.
  cases mark
  case minus =>
    simp only
    rw [bind_of_ok stands₁.peek]
    exact applies
  all_goals first | exact applies | exact absurd heads (by decide)

/-! ## Names -/

/-- A word that is no literal. -/
def IsPlain (name : String) : Prop := name ≠ "true" ∧ name ≠ "false"

instance (name : String) : Decidable (IsPlain name) := inferInstanceAs (Decidable (_ ∧ _))

theorem named_of_plain (term : Parser Tree) {name : String} (plain : IsPlain name) {c : Cursor}
    {u : Token} {ts : List Token} (stands : Stands I c (.name name :: u :: ts)) :
    ∃ place c', termWith ctx term c = named ctx term name place c' ∧ Stands I c' (u :: ts) := by
  obtain ⟨first, c', taken, shown, stands'⟩ := stands.advance
  obtain ⟨noTrue, noFalse⟩ := plain
  refine ⟨first.place, c', ?_, stands'⟩
  rw [termWith, bind_of_ok taken]
  refine congrFun ?_ c'
  split <;> simp_all

theorem members_reads (place : Position) :
    ∀ {names : List String} {allowance : Nat}, names.length ≤ allowance →
      ∀ {c : Cursor} {t : Token} {more : List Token}, t ≠ .symbol .dot →
        Stands I c ((names.flatMap fun name => [.symbol .dot, .name name]) ++ t :: more) →
        ∃ c', members place allowance c = .ok (names, c') ∧ Stands I c' (t :: more)
  | [], 0, _, c, _, _, _, stands => ⟨c, rfl, stands⟩
  | [], allowance + 1, _, c, t, _, noDot, stands => by
      refine ⟨c, ?_, stands⟩
      rw [members, bind_of_ok (stands.check_of_ne noDot)]
      rfl
  | _ :: _, 0, enough, _, _, _, _, _ => absurd enough (Nat.not_succ_le_zero _)
  | name :: names, allowance + 1, enough, c, t, more, noDot, stands => by
      simp only [List.flatMap_cons, List.cons_append, List.nil_append] at stands
      obtain ⟨_, c₁, dot, -, stands₁⟩ := stands.advance
      obtain ⟨u, tail, shape⟩ := List.exists_cons_of_ne_nil
        (show (names.flatMap fun name => [.symbol .dot, .name name]) ++ t :: more ≠ [] by simp)
      rw [shape] at stands₁
      obtain ⟨member, c₂, taken, shown, stands₂⟩ := stands₁.advance
      rw [← shape] at stands₂
      obtain ⟨c₃, others, stands₃⟩ :=
        members_reads place (Nat.le_of_succ_le_succ enough) noDot stands₂
      refine ⟨c₃, ?_, stands₃⟩
      rw [members, bind_of_ok (stands.check .dot)]
      simp only [if_true]
      rw [bind_of_ok dot, bind_of_ok taken]
      simp only [shown]
      rw [bind_of_ok others]
      rfl

theorem pathTokens_cons (first : String) (others : List String) :
    pathTokens ⟨first :: others⟩ =
      .name first :: others.flatMap fun name => [.symbol .dot, .name name] := by
  induction others generalizing first with
  | nil => rfl
  | cons second others ih =>
      have step := ih second
      simp only [pathTokens, List.map_cons, List.intercalate_cons_cons, List.flatMap_cons] at step ⊢
      rw [step]
      rfl

/-- The names of a path are read, and what stands behind them decides what becomes of it. -/
theorem path_reads (term : Parser Tree) {first : String} {others : List String}
    (plain : IsPlain first) {c : Cursor} {t : Token} {more : List Token} (noDot : t ≠ .symbol .dot)
    (stands : Stands I c (pathTokens ⟨first :: others⟩ ++ t :: more)) :
    ∃ place c', Stands I c' (t :: more) ∧ termWith ctx term c =
      (match t, (Path.mk (first :: others)).isName with
        | .symbol .assign, true => do
            let _ ← advance
            define first
            let value ← term
            return .bind first value
        | .symbol .lParen, _ => do
            let operands ← args term
            call ctx ⟨first :: others⟩ operands place
        | _, _ => reference ctx ⟨first :: others⟩ place : Parser Tree) c' := by
  rw [pathTokens_cons, List.cons_append] at stands
  obtain ⟨u, tail, shape⟩ := List.exists_cons_of_ne_nil
    (show (others.flatMap fun name => [.symbol .dot, .name name]) ++ t :: more ≠ [] by simp)
  rw [shape] at stands
  obtain ⟨place, c₁, begun, stands₁⟩ := named_of_plain ctx term plain stands
  rw [← shape] at stands₁
  have enough : others.length ≤
      ((others.flatMap fun name => [Token.symbol .dot, .name name]) ++ t :: more).length := by
    simp only [List.length_append, List.length_flatMap, List.length_cons, List.length_nil,
      List.map_const', List.sum_replicate_nat]
    omega
  obtain ⟨c₂, names, stands₂⟩ := members_reads place enough noDot stands₁
  refine ⟨place, c₂, stands₂, ?_⟩
  rw [begun, named, bind_of_ok stands₁.remaining, bind_of_ok names, bind_of_ok stands₂.peek]
  rfl

/-- A path in front of arguments is a call, whose head is looked at when they have been read. -/
theorem path_call {first : String} {others : List String} (plain : IsPlain first) {xs : List α}
    (each : ReadsAll term tokens result I xs J) (begins : ∀ x ∈ xs, Begins (tokens x))
    {c : Cursor} {more : List Token} (follows : Follows more)
    (stands : Stands I c (appliedTokens (pathTokens ⟨first :: others⟩) (xs.map tokens) ++ more)) :
    ∃ operands place c', termWith ctx term c = call ctx ⟨first :: others⟩ operands place c' ∧
      List.Forall₂ result xs operands ∧ Stands J c' more := by
  simp only [appliedTokens, List.append_assoc, List.cons_append, List.nil_append] at stands
  obtain ⟨place, c₁, stands₁, begun⟩ :=
    path_reads ctx term plain (by simp) stands
  obtain ⟨operands, c₂, read, rights, stands₂⟩ := args_reads each begins follows stands₁
  refine ⟨operands, place, c₂, ?_, rights, stands₂⟩
  rw [begun]
  exact bind_of_ok read

section Visible

variable {ctx}

theorem sees_of_visible {name : String} {c : Cursor} (visible : ctx.Sees c.names name) :
    sees ctx name c = .ok (true, c) := by
  change Except.ok (c.names.any (·.contains name) || ctx.isBound name, c) = _
  rw [visible]

theorem requireRoot_of_visible {path : Path} {c : Cursor} (visible : ctx.Sees c.names path.root)
    (place : Position) : requireRoot ctx path place c = .ok ((), c) := by
  rw [requireRoot, bind_of_ok (sees_of_visible visible)]
  rfl

theorem reference_reads {path : Path} {first : String} (shape : path.segments.head? = some first)
    (plain : IsPlain first) (visible : ∀ names serial, I names serial → ctx.Sees names first) :
    Reads I (termWith ctx term) (pathTokens path) (· = .reference path) := by
  obtain ⟨_ | ⟨root, others⟩⟩ := path
  · exact nomatch shape
  cases shape
  rintro c more ⟨t, rest, rfl, noDot, noAssign, noParen⟩ stands
  obtain ⟨place, c', stands', begun⟩ := path_reads ctx term plain noDot stands
  refine ⟨.reference ⟨first :: others⟩, c', ?_, rfl, stands'⟩
  have refers : reference ctx ⟨first :: others⟩ place c' =
      .ok (.reference ⟨first :: others⟩, c') := by
    rw [reference, bind_of_ok (requireRoot_of_visible (visible _ _ stands'.keeps) place)]
    rfl
  rw [begun, ← refers]
  refine congrFun ?_ c'
  split <;> simp_all

theorem invoke_reads {path : Path} {first : String} (shape : path.segments.head? = some first)
    (plain : IsPlain first) (visible : ∀ names serial, J names serial → ctx.Sees names first)
    {xs : List α} (each : ReadsAll term tokens result I xs J)
    (begins : ∀ x ∈ xs, Begins (tokens x)) :
    ReadsTo I J (termWith ctx term) (appliedTokens (pathTokens path) (xs.map tokens))
      fun tree => ∃ operands, List.Forall₂ result xs operands ∧ tree = .invoke path operands := by
  obtain ⟨_ | ⟨root, others⟩⟩ := path
  · exact nomatch shape
  cases shape
  intro c more follows stands
  obtain ⟨operands, place, c', begun, rights, stands'⟩ :=
    path_call ctx plain each begins follows stands
  refine ⟨.invoke ⟨first :: others⟩ operands, c', ?_, ⟨operands, rights, rfl⟩, stands'⟩
  have sees : ctx.Sees c'.names (Path.mk (first :: others)).root := visible _ _ stands'.keeps
  rw [begun, call, bind_of_ok (sees_of_visible sees)]
  simp only [Bool.not_true, Bool.and_false, Bool.false_and, Bool.false_eq_true, if_false]
  rw [bind_of_ok (requireRoot_of_visible sees place)]
  rfl

end Visible

/-! ## Bindings and functions

They bring names into view, and the names of a function go out of view behind it. -/

section Scoping

theorem define_stands {c : Cursor} {ts : List Token} (name : String) (stands : Stands I c ts) :
    ∃ c', define name c = .ok ((), c') ∧
      Stands (I.behind (List.modifyHead (name :: ·))) c' ts := by
  refine ⟨_, rfl, ?_⟩
  dsimp only
  split
  · rename_i none
    exact ⟨stands.flat, stands.shows, c.names, stands.keeps, by rw [none]; rfl⟩
  · rename_i some
    exact ⟨stands.flat, stands.shows, c.names, stands.keeps, by rw [some]; rfl⟩

/-- A binding, whose name is in view in its own value. -/
theorem bind_reads {name : String} (plain : IsPlain name) {ts : List Token}
    {right : Tree → Prop} (reads : ReadsTo (I.behind (List.modifyHead (name :: ·))) J term ts right)
    (begins : Begins ts) :
    ReadsTo I J (termWith ctx term) (.name name :: .symbol .assign :: ts)
      fun tree => ∃ value, right value ∧ tree = .bind name value := by
  intro c more follows stands
  have named : Stands I c (pathTokens ⟨[name]⟩ ++ .symbol .assign :: (ts ++ more)) := stands
  obtain ⟨place, c₁, stands₁, begun⟩ :=
    path_reads ctx term plain (by simp) named
  obtain ⟨t, tail, shape, -⟩ := begins
  rw [shape, List.cons_append] at stands₁
  obtain ⟨_, c₂, taken, -, stands₂⟩ := stands₁.advance
  obtain ⟨c₃, defined, stands₃⟩ := define_stands name stands₂
  rw [← List.cons_append, ← shape] at stands₃
  obtain ⟨value, c₄, read, isRight, stands₄⟩ := reads follows stands₃
  refine ⟨.bind name value, c₄, ?_, ⟨value, isRight, rfl⟩, stands₄⟩
  rw [begun]
  simp only [Path.isName, List.length_singleton, BEq.rfl]
  rw [bind_of_ok taken, bind_of_ok defined, bind_of_ok read]
  rfl

theorem parameters_reads (opening : Position) :
    ∀ {params : List String} {allowance : Nat}, params.length < allowance →
      ∀ {I : Invariant} {c : Cursor} {more : List Token}, more ≠ [] →
        Stands I c (params.map .name ++ .symbol .pipe :: more) →
        ∃ c', parameters opening allowance c = .ok (params, c') ∧
          Stands (I.behind (List.modifyHead (params.reverse ++ ·))) c' more
  | _, 0, enough, _, _, _, _, _ => absurd enough (Nat.not_lt_zero _)
  | [], allowance + 1, _, I, c, more, nonempty, stands => by
      obtain ⟨u, tail, rfl⟩ := List.exists_cons_of_ne_nil nonempty
      obtain ⟨first, c', taken, shown, stands'⟩ := stands.advance
      refine ⟨c', ?_, stands'.mono fun names _ known => ⟨names, known, ?_⟩⟩
      · rw [parameters, bind_of_ok taken]
        simp only [shown]
        rfl
      · cases names <;> rfl
  | name :: params, allowance + 1, enough, I, c, more, nonempty, stands => by
      obtain ⟨u, tail, shape⟩ := List.exists_cons_of_ne_nil
        (show params.map Token.name ++ .symbol .pipe :: more ≠ [] by simp)
      rw [List.map_cons, List.cons_append, shape] at stands
      obtain ⟨first, c₁, taken, shown, stands₁⟩ := stands.advance
      obtain ⟨c₂, defined, stands₂⟩ := define_stands name stands₁
      rw [← shape] at stands₂
      obtain ⟨c₃, others, stands₃⟩ := parameters_reads opening
        (Nat.lt_of_succ_lt_succ enough) nonempty stands₂
      refine ⟨c₃, ?_, stands₃.mono ?_⟩
      · rw [parameters, bind_of_ok taken]
        simp only [shown]
        rw [bind_of_ok defined, bind_of_ok others]
        rfl
      · rintro _ _ ⟨_, ⟨before, known, rfl⟩, rfl⟩
        refine ⟨before, known, ?_⟩
        cases before <;> simp

/-- The tokens of the parameters of a function, with the bars around them, if it has bars at all. -/
def headerTokens : Option (List String) → List Token
  | none => []
  | some params => .symbol .pipe :: (params.map .name ++ [.symbol .pipe])

/-- Where there are no parameters, the bars are not written. -/
theorem parameterTokens_eq (params : List String) :
    ∃ header : Option (List String), parameterTokens params = headerTokens header ∧
      header.getD [] = params := by
  cases params with
  | nil => exact ⟨none, rfl, rfl⟩
  | cons first others => exact ⟨some (first :: others), rfl, rfl⟩

/-- The parameters of a function, which may be left out, in front of what is done with them. -/
theorem header_reads (opening : Position) (header : Option (List String)) {c : Cursor} {t : Token}
    {more : List Token} (noBar : t ≠ .symbol .pipe)
    (stands : Stands I c (headerTokens header ++ t :: more)) :
    ∃ c', Stands (I.behind (List.modifyHead ((header.getD []).reverse ++ ·))) c' (t :: more) ∧
      ∀ next : List String → Parser Tree,
      (do
        if ← check .pipe then
          let _ ← advance
          let params ← parameters opening (← remaining)
          next params
        else next [] : Parser Tree) c = next (header.getD []) c' := by
  cases header with
  | none =>
      refine ⟨c, stands.mono fun names _ known => ⟨names, known, ?_⟩, fun next => ?_⟩
      · cases names <;> rfl
      · rw [bind_of_ok (stands.check_of_ne noBar)]
        rfl
  | some params =>
      simp only [headerTokens, List.cons_append, List.append_assoc, List.nil_append] at stands
      obtain ⟨u, tail, shape⟩ := List.exists_cons_of_ne_nil
        (show params.map Token.name ++ .symbol .pipe :: t :: more ≠ [] by simp)
      rw [shape] at stands
      obtain ⟨_, c₁, taken, -, stands₁⟩ := stands.advance
      rw [← shape] at stands₁
      have enough : params.length <
          (params.map Token.name ++ .symbol .pipe :: t :: more).length := by
        simp only [List.length_append, List.length_map, List.length_cons]
        omega
      obtain ⟨c₂, read, stands₂⟩ :=
        parameters_reads opening enough (List.cons_ne_nil t more) stands₁
      refine ⟨c₂, stands₂, fun next => ?_⟩
      rw [bind_of_ok (stands.check .pipe)]
      simp only [if_true]
      rw [bind_of_ok taken, bind_of_ok stands₁.remaining, bind_of_ok read]
      rfl

/-- A function, whose statements become the body. -/
theorem function_reads (header : Option (List String)) {xs : List α}
    (each : ReadsAll term tokens result (I.behind ((header.getD []).reverse :: ·)) xs J)
    (begins : ∀ x ∈ xs, Begins (tokens x)) :
    ReadsTo I (J.behind leave) (termWith ctx term)
      (.symbol .lBrace :: (headerTokens header ++
        ((xs.map tokens).flatten ++ [.symbol .rBrace])))
      fun tree => ∃ statements, List.Forall₂ result xs statements ∧
        tree = .literal (.closure (header.getD []) (.sequence statements) none) := by
  intro c more follows stands
  simp only [List.cons_append, List.append_assoc, List.nil_append] at stands
  have inside : ∃ t tail, (xs.map tokens).flatten ++ .symbol .rBrace :: more = t :: tail ∧
      t ≠ .symbol .pipe := by
    cases xs with
    | nil => exact ⟨_, _, rfl, by simp⟩
    | cons x xs =>
        obtain ⟨t, tail, shape, starts⟩ := begins x List.mem_cons_self
        exact ⟨t, _, by rw [List.map_cons, List.flatten_cons, shape]; rfl,
          ne_of_beginsTerm starts rfl⟩
  obtain ⟨t, tail, shape, noBar⟩ := inside
  rw [shape] at stands
  obtain ⟨u, tail', front⟩ := List.exists_cons_of_ne_nil
    (show headerTokens header ++ t :: tail ≠ [] by simp)
  rw [front] at stands
  obtain ⟨first, c₁, taken, shown, stands₁⟩ := stands.advance
  rw [← front] at stands₁
  have opened : Stands (I.behind ([] :: ·)) { c₁ with names := [] :: c₁.names }
      (headerTokens header ++ t :: tail) :=
    ⟨stands₁.flat, stands₁.shows, c₁.names, stands₁.keeps, rfl⟩
  obtain ⟨c₂, stands₂, headed⟩ := header_reads first.place header noBar opened
  rw [← shape] at stands₂
  have enough : xs.length < ((xs.map tokens).flatten ++ Token.symbol .rBrace :: more).length := by
    have := length_le_flatten begins
    simp only [List.length_append, List.length_cons]
    omega
  have entering : Stands (I.behind ((header.getD []).reverse :: ·)) c₂
      ((xs.map tokens).flatten ++ .symbol .rBrace :: more) := stands₂.mono <| by
    rintro _ _ ⟨_, ⟨before, known, rfl⟩, rfl⟩
    exact ⟨before, known, by simp⟩
  obtain ⟨statements, c₃, read, rights, stands₃⟩ :=
    termsUntil_reads .rBrace rfl (by decide) first.place "\x7b" each begins enough follows
      entering
  refine ⟨.literal (.closure (header.getD []) (.sequence statements) none),
    { c₃ with names := leave c₃.names }, ?_, ⟨statements, rights, rfl⟩, stands₃.flat,
    stands₃.shows, c₃.names, stands₃.keeps, rfl⟩
  rw [termWith, bind_of_ok taken]
  simp only [shown]
  have entered : (modify fun c => { c with names := [] :: c.names } : Parser PUnit) c₁ =
      .ok ((), { c₁ with names := [] :: c₁.names }) := rfl
  rw [function, body, bind_of_ok entered]
  have inner : (do
      if ← check .pipe then
        let _ ← advance
        let params ← parameters first.place (← remaining)
        let statements ← termsUntil term .rBrace first.place "\x7b" (← remaining)
        return .literal (.closure params (.sequence statements) none)
      else
        let statements ← termsUntil term .rBrace first.place "\x7b" (← remaining)
        return .literal (.closure [] (.sequence statements) none) : Parser Tree)
      { c₁ with names := [] :: c₁.names } =
        .ok (.literal (.closure (header.getD []) (.sequence statements) none), c₃) := by
    refine (headed fun params => do
      let statements ← termsUntil term .rBrace first.place "\x7b" (← remaining)
      return .literal (.closure params (.sequence statements) none)).trans ?_
    rw [bind_of_ok stands₂.remaining, bind_of_ok read]
    rfl
  exact (bind_of_ok inner).trans rfl

/-- A function whose bars are written only around parameters. -/
theorem closure_reads {params : List String} {xs : List α}
    (each : ReadsAll term tokens result (I.behind (params.reverse :: ·)) xs J)
    (begins : ∀ x ∈ xs, Begins (tokens x)) :
    ReadsTo I (J.behind leave) (termWith ctx term)
      (.symbol .lBrace :: (parameterTokens params ++
        ((xs.map tokens).flatten ++ [.symbol .rBrace])))
      fun tree => ∃ statements, List.Forall₂ result xs statements ∧
        tree = .literal (.closure params (.sequence statements) none) := by
  obtain ⟨header, same, rfl⟩ := parameterTokens_eq params
  rw [same]
  exact function_reads ctx header each begins

end Scoping

/-! ## Scripts -/

theorem script_reads {xs : List α} (each : ReadsAll term tokens result I xs J)
    (begins : ∀ x ∈ xs, Begins (tokens x)) {allowance : Nat} (enough : xs.length ≤ allowance)
    {c : Cursor} (stands : Stands I c ((xs.map tokens).flatten ++ [.finish])) :
    ∃ trees c', script term allowance c = .ok (trees, c') ∧ List.Forall₂ result xs trees ∧
      Stands J c' [.finish] := by
  induction each generalizing allowance c with
  | nil =>
      refine ⟨[], c, ?_, .nil, stands⟩
      cases allowance with
      | zero => rfl
      | succ allowance =>
          rw [script, bind_of_ok stands.peek]
          rfl
  | @cons _ _ _ x xs reads _ ih =>
      obtain ⟨allowance, rfl⟩ :=
        Nat.exists_eq_succ_of_ne_zero (Nat.ne_of_gt (Nat.zero_lt_of_lt enough))
      obtain ⟨t, tail, shape, starts⟩ := begins x List.mem_cons_self
      have othersBegin : ∀ y ∈ xs, Begins (tokens y) :=
        fun y h => begins y (List.mem_cons_of_mem x h)
      rw [List.map_cons, List.flatten_cons, List.append_assoc] at stands
      have finish : Follows [.finish] :=
        ⟨_, _, rfl, Token.noConfusion, Token.noConfusion, Token.noConfusion⟩
      obtain ⟨tree, c₁, first, right, stands₁⟩ :=
        reads (follows_terms othersBegin finish) stands
      obtain ⟨trees, c₂, rest, rights, stands₂⟩ :=
        ih othersBegin (Nat.le_of_succ_le_succ enough) stands₁
      refine ⟨tree :: trees, c₂, ?_, .cons right rights, stands₂⟩
      rw [shape, List.cons_append] at stands
      rw [script, bind_of_ok stands.peek]
      have goesOn : (do
          let first ← term
          let rest ← script term allowance
          return first :: rest : Parser (List Tree)) c = .ok (tree :: trees, c₂) := by
        rw [bind_of_ok first, bind_of_ok rest]
        rfl
      cases t <;> first | exact goesOn | exact nomatch starts

theorem map_filter_counts {placed : List Placed} {ts : List Token}
    (shown : placed.map Placed.token = ts) (oneLine : Token.newline ∉ ts) :
    placed.filter counts = placed := by
  refine List.filter_eq_self.mpr fun t among => ?_
  have noBreak : t.token ≠ .newline := by
    rintro isBreak
    exact oneLine (shown ▸ isBreak ▸ List.mem_map_of_mem among)
  unfold counts
  split
  · rename_i isBreak
    exact absurd isBreak noBreak
  · rfl

/-- A text that is cut into terms, each of which is read, is a script of what they are read as. -/
theorem parse_of_reads {xs : List α} {source : String} {serial : Nat} (initial : I [[]] serial)
    (cut : Lexes source.toList ((xs.map tokens).flatten ++ [.finish]))
    (oneLine : ∀ x ∈ xs, Token.newline ∉ tokens x)
    (each : ReadsAll (Pi.term ctx nestingLimit) tokens result I xs J)
    (begins : ∀ x ∈ xs, Begins (tokens x)) :
    ∃ trees next names, Script.parse .pi ctx source serial = .ok (.sequence trees, next) ∧
      List.Forall₂ result xs trees ∧ J names next := by
  obtain ⟨placed, read, shown⟩ := cut .start
  have noBreak : Token.newline ∉ (xs.map tokens).flatten ++ [.finish] := by
    simp only [List.mem_append, List.mem_flatten, List.mem_map, List.mem_singleton, reduceCtorEq,
      or_false, not_exists, not_and, exists_exists_and_eq_and]
    exact oneLine
  have stands : Stands I ⟨placed, 0, [[]], serial⟩ ((xs.map tokens).flatten ++ [.finish]) :=
    ⟨rfl, shown, initial⟩
  have enough : xs.length ≤ placed.length := by
    have room := length_le_flatten begins
    have length := congrArg List.length shown
    rw [List.length_map, List.length_append] at length
    omega
  obtain ⟨trees, c, parsed, rights, left⟩ := script_reads each begins enough stands
  refine ⟨trees, c.serial, c.names, ?_, rights, left.keeps⟩
  have tokenized : tokenize source = .ok placed := read
  rw [Script.parse, tokenized]
  change Pi.parse ctx placed serial = _
  rw [Pi.parse, map_filter_counts shown noBreak]
  rw [parsed]
  rfl

end Lists

end Pi

end PeerScript.Script
