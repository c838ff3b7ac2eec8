import PeerScript.Proofs.Printing

/-!
# Reading printed scripts

The readers of the language of statements take the tokens of what was printed and give its tree, as
long as there are levels enough; otherwise they complain about the nesting.  `Ends` is this
alternative, which goes through every construct of the grammar, so that the number of levels is
exact.

The operators are the difficult part.  An operand that stands at some level is read by a chain of
that level up to what follows it, and this is also true of a left operand with operators of the same
level, which the chain goes on with: `chain_takes`.
-/

set_option autoImplicit false

namespace PeerScript.Script.Rho

open Text (Position)
open PeerScript.Script.Parser
open Encoder (pathTokens appliedTokens)

variable {α β : Type}

/-! ## Levels enough, or a complaint -/

/-- If there are levels enough the parser succeeds, and rightly, and otherwise it complains about
the nesting. -/
def Ends (fits : Prop) (r : Except Fault (α × Cursor)) (right : α → Cursor → Prop) : Prop :=
  (fits ∧ ∃ a c, r = .ok (a, c) ∧ right a c) ∨
    (¬ fits ∧ ∃ place, r = .error (.malformed place (.nestingTooDeep nestingLimit)))

namespace Ends

variable {fits other : Prop} {r : Except Fault (α × Cursor)} {p : Parser α}
  {f : α → Parser β} {c : Cursor}
  {right : α → Cursor → Prop} {right' : β → Cursor → Prop}

theorem of_ok {a : α} {c' : Cursor} (enough : fits) (read : r = .ok (a, c')) (known : right a c') :
    Ends fits r right := .inl ⟨enough, a, c', read, known⟩

theorem congr (h : Ends fits r right) (same : fits ↔ other) : Ends other r right := by
  rwa [Ends, ← same]

theorem bind (first : Ends fits (p c) right)
    (next : ∀ a c', right a c' → Ends other (f a c') right') :
    Ends (fits ∧ other) ((p >>= f) c) right' := by
  rcases first with ⟨enough, a, c', read, known⟩ | ⟨few, place, stops⟩
  · rw [bind_of_ok read]
    rcases next a c' known with ⟨enough', more⟩ | ⟨few', more⟩
    · exact .inl ⟨⟨enough, enough'⟩, more⟩
    · exact .inr ⟨fun both => few' both.2, more⟩
  · refine .inr ⟨fun both => few both.1, place, ?_⟩
    change (p c >>= fun x => f x.1 x.2) = _
    rw [stops]
    rfl

/-- What comes behind needs no levels. -/
theorem followed (first : Ends fits (p c) right)
    (next : ∀ a c', right a c' → ∃ b c'', f a c' = .ok (b, c'') ∧ right' b c'') :
    Ends fits ((p >>= f) c) right' := by
  have both : Ends (fits ∧ True) ((p >>= f) c) right' := first.bind fun a c' known => by
    obtain ⟨b, c'', read, right⟩ := next a c' known
    exact .of_ok trivial read right
  exact both.congr (and_iff_left trivial)

end Ends

/-! ## Cursors in front of tokens -/

theorem isSymbol_self (mark : Symbol) : (Token.symbol mark).isSymbol mark = true :=
  decide_eq_true_iff.mpr rfl

/-- A cursor in front of the given tokens, among which there are no line ends. -/
structure Faces (serial : Nat) (c : Cursor) (ts : List Token) : Prop where
  shows : c.rest.map Placed.token = ts
  plain : ∀ t ∈ ts, t.isNewline = false
  numbered : c.serial = serial

namespace Faces

variable {serial : Nat} {c : Cursor} {t u : Token} {ts : List Token}

theorem rest_eq (h : Faces serial c (t :: ts)) : ∃ place rest, c.rest = ⟨t, place⟩ :: rest := by
  obtain ⟨⟨_, place⟩, rest, shape, rfl, -⟩ := List.map_eq_cons_iff.mp h.shows
  exact ⟨place, rest, shape⟩

theorem settled (h : Faces serial c (t :: ts)) : c.settled = c := by
  obtain ⟨place, rest, shape⟩ := h.rest_eq
  unfold Cursor.settled Cursor.drop
  split
  · rw [shape, List.dropWhile_cons, h.plain t List.mem_cons_self]
    simp only [Bool.false_eq_true, if_false, ← shape]
  · rfl

theorem next (h : Faces serial c (t :: ts)) : c.next.token = t := by
  obtain ⟨place, rest, shape⟩ := h.rest_eq
  rw [Cursor.next, shape]
  rfl

theorem behind (h : Faces serial c (t :: u :: ts)) : Faces serial c.behind (u :: ts) := by
  obtain ⟨place, rest, shape⟩ := h.rest_eq
  have shows := h.shows
  rw [shape, List.map_cons] at shows
  obtain ⟨second, others, rfl, -⟩ := List.map_eq_cons_iff.mp (List.cons.inj shows).2
  refine ⟨?_, fun v mem => h.plain v (List.mem_cons_of_mem t mem),
    (Cursor.serial_behind c).trans h.numbered⟩
  rw [Cursor.behind, shape]
  exact (List.cons.inj shows).2

theorem pass (h : Faces serial c (t :: ts)) (more : ts ≠ []) : Faces serial c.behind ts := by
  obtain ⟨u, rest, rfl⟩ := List.exists_cons_of_ne_nil more
  exact h.behind

theorem peek (h : Faces serial c (t :: ts)) : peek c = .ok (t, c) := by
  rw [peek_eq, h.settled, h.next]

theorem advance (h : Faces serial c (t :: ts)) :
    ∃ first, advance c = .ok (first, c.behind) ∧ first.token = t := by
  refine ⟨c.next, ?_, h.next⟩
  rw [advance_eq, h.settled]

theorem check (mark : Symbol) (h : Faces serial c (t :: ts)) :
    check mark c = .ok (t.isSymbol mark, c) := by
  unfold Parser.check
  rw [bind_of_ok h.peek]
  cases t <;> rfl

theorem remaining (h : Faces serial c ts) : remaining c = .ok (ts.length, c) := by
  change Except.ok (c.rest.length, c) = _
  rw [← h.shows, List.length_map]

theorem expect {mark : Symbol} (what : String) (h : Faces serial c (.symbol mark :: ts)) :
    expect mark what c = .ok ((), c.behind) := by
  obtain ⟨first, taken, -⟩ := h.advance
  unfold Parser.expect
  rw [bind_of_ok (h.check mark), isSymbol_self]
  simp only [if_true]
  rw [bind_of_ok taken]
  rfl

/-- Where the names in view or the open brackets have changed. -/
theorem changed {c' : Cursor} (h : Faces serial c ts) (rest : c'.rest = c.rest)
    (numbered : c'.serial = c.serial) :
    Faces serial c' ts := ⟨rest ▸ h.shows, h.plain, numbered.trans h.numbered⟩

end Faces

/-- The parser takes the tokens in front of others and gives the result, if there are levels
enough. -/
def Takes (serial : Nat) (p : Parser α) (fits : Prop) (ts more : List Token) (x : α) : Prop :=
  ∀ ⦃c : Cursor⦄, Faces serial c (ts ++ more) → Ends fits (p c) fun y c' => y = x ∧
    Faces serial c' more

theorem Takes.congr {serial : Nat} {p : Parser α} {fits other : Prop} {ts more : List Token} {x : α}
    (h : Takes serial p fits ts more x) (same : fits ↔ other) : Takes serial p other ts more x :=
  fun _ faces => (h faces).congr same

section Laws

variable {serial : Nat} {fits : Prop} {ts more : List Token} {u : Token}

/-! ## Wrapped parsers -/

theorem nested_takes {p : Nat → Parser Tree} {need : Nat} {x : Tree}
    (h : ∀ levels, Takes serial (p levels) (need ≤ levels) ts more x) (levels : Nat) :
    Takes serial (nested p levels) (need + 1 ≤ levels) ts more x := by
  intro c faces
  cases levels with
  | zero => exact .inr ⟨Nat.not_succ_le_zero need, _, rfl⟩
  | succ levels => exact (h levels faces).congr Nat.succ_le_succ_iff.symm

/-- Changes of the names in view and of the open brackets do not matter. -/
theorem wrapped_takes {p : Parser α} {x : α} (h : Takes serial p fits ts more x)
    {before after : Cursor → Cursor}
    (keeps : ∀ c, (before c).rest = c.rest ∧ (before c).serial = c.serial)
    (keeps' : ∀ c, (after c).rest = c.rest ∧ (after c).serial = c.serial) :
    Takes serial (do
      modify before
      let result ← p
      modify after
      return result) fits ts more x := by
  intro c faces
  have entered : (modify before : Parser PUnit) c = .ok ((), before c) := rfl
  rw [bind_of_ok entered]
  refine (h (faces.changed (keeps c).1 (keeps c).2)).followed ?_
  rintro y c' ⟨rfl, faces'⟩
  exact ⟨y, after c', rfl, rfl, faces'.changed (keeps' c').1 (keeps' c').2⟩

theorem bracketed_takes {p : Parser α} {x : α} (h : Takes serial p fits ts more x) :
    Takes serial (bracketed p) fits ts more x :=
  wrapped_takes h (fun _ => ⟨rfl, rfl⟩) fun _ => ⟨rfl, rfl⟩

theorem body_takes {p : Parser α} {x : α} (h : Takes serial p fits ts more x) :
    Takes serial (body p) fits ts more x :=
  wrapped_takes h (fun _ => ⟨rfl, rfl⟩) fun _ => ⟨rfl, rfl⟩

/-- A loop is allowed as many rounds as there are tokens. -/
theorem remaining_takes {p : Nat → Parser α} {x : α}
    (each : ∀ allowance, (ts ++ more).length ≤ allowance →
      Takes serial (p allowance) fits ts more x) :
    Takes serial (do p (← remaining)) fits ts more x := by
  intro c faces
  rw [bind_of_ok faces.remaining]
  exact each _ (Nat.le_refl _) faces

theorem define_eq (name : String) (c : Cursor) :
    ∃ c', define name c = .ok ((), c') ∧ c'.rest = c.rest ∧ c'.serial = c.serial := by
  refine ⟨_, rfl, ?_⟩
  dsimp only
  split <;> exact ⟨rfl, rfl⟩

/-! ## Lists of expressions -/

/-- Tokens that an expression may begin with. -/
def Begins (ts : List Token) : Prop :=
  ∃ t rest, ts = t :: rest ∧ t ≠ .finish ∧ ∀ mark ∈ [Symbol.rParen, .rBracket, .rBrace, .semi],
    t ≠ .symbol mark

theorem Begins.append (h : Begins ts) (more : List Token) : Begins (ts ++ more) := by
  obtain ⟨t, rest, rfl, known⟩ := h
  exact ⟨t, rest ++ more, rfl, known⟩

theorem Begins.isSymbol_eq {t : Token} {rest : List Token} (h : Begins (t :: rest)) {mark : Symbol}
    (mem : mark ∈ [Symbol.rParen, .rBracket, .rBrace, .semi]) : t.isSymbol mark = false := by
  obtain ⟨_, _, same, -, no⟩ := h
  cases same
  cases t with
  | symbol other => exact decide_eq_false fun same => no mark mem (congrArg Token.symbol same)
  | _ => rfl

section Lists

variable {expression : Parser Tree} {close : Symbol} {allowance : Nat} {x : Tree}

/-- No expressions in front of the symbol that closes them. -/
theorem expressionList_none {c : Cursor} (faces : Faces serial c (.symbol close :: u :: more)) :
    expressionList expression close (allowance + 1) c = .ok ([], c.behind) := by
  obtain ⟨first, taken, -⟩ := faces.advance
  rw [expressionList, bind_of_ok (faces.check close), isSymbol_self]
  simp only [if_true]
  rw [bind_of_ok taken]
  rfl

/-- Where an expression begins, the list goes on with it. -/
theorem expressionList_begins (closes : close ∈ [Symbol.rParen, .rBracket]) {c : Cursor}
    (begins : Begins ts) (faces : Faces serial c ts) :
    expressionList expression close (allowance + 1) c =
      (do
        let first ← expression
        if ← check .comma then
          let _ ← advance
        else unless ← check close do
          complain (.expected "',' or closing delimiter" (← peek))
        let rest ← expressionList expression close allowance
        return first :: rest : Parser (List Tree)) c := by
  obtain ⟨t, rest, rfl, noFinish, -⟩ := id begins
  have among : close ∈ [Symbol.rParen, .rBracket, .rBrace, .semi] := by
    simp only [List.mem_cons, List.not_mem_nil, or_false] at closes ⊢
    exact closes.imp_right Or.inl
  rw [expressionList, bind_of_ok (faces.check close), begins.isSymbol_eq among]
  simp only [Bool.false_eq_true, if_false]
  rw [bind_of_ok faces.peek]
  cases t with
  | finish => exact absurd rfl noFinish
  | _ => rfl

/-- The last expression. -/
theorem expressionList_last (closes : close ∈ [Symbol.rParen, .rBracket]) (begins : Begins ts)
    (first : Takes serial expression fits ts (.symbol close :: u :: more) x) :
    Takes serial (expressionList expression close (allowance + 2)) fits
      (ts ++ [.symbol close]) (u :: more) [x] := by
  intro c faces
  rw [List.append_assoc] at faces
  rw [expressionList_begins closes (begins.append _) faces]
  refine (first faces).followed ?_
  rintro y c' ⟨rfl, faces'⟩
  have noComma : (Token.symbol close).isSymbol .comma = false := by
    refine decide_eq_false ?_
    rintro rfl
    exact absurd closes (by decide)
  refine ⟨[y], c'.behind, ?_, rfl, faces'.behind⟩
  rw [bind_of_ok (faces'.check .comma), noComma]
  simp only [Bool.false_eq_true, if_false]
  rw [bind_of_ok (faces'.check close), isSymbol_self]
  simp only [if_true]
  rw [bind_of_ok (expressionList_none faces')]
  rfl

/-- An expression that is not the last one. -/
theorem expressionList_cons (closes : close ∈ [Symbol.rParen, .rBracket]) {ts' : List Token}
    {fits' : Prop} {xs : List Tree} (begins : Begins ts)
    (first : Takes serial expression fits ts (.symbol .comma :: (ts' ++ u :: more)) x)
    (nonempty : ts' ≠ [])
    (rest : Takes serial (expressionList expression close allowance) fits' ts' (u :: more) xs) :
    Takes serial (expressionList expression close (allowance + 1)) (fits ∧ fits')
      (ts ++ .symbol .comma :: ts') (u :: more) (x :: xs) := by
  intro c faces
  rw [List.append_assoc] at faces
  rw [expressionList_begins closes (begins.append _) faces]
  refine (first faces).bind ?_
  rintro y c' ⟨rfl, faces'⟩
  obtain ⟨_, taken, -⟩ := faces'.advance
  obtain ⟨t, others, rfl⟩ := List.exists_cons_of_ne_nil nonempty
  rw [bind_of_ok (faces'.check .comma), isSymbol_self]
  simp only [if_true]
  rw [bind_of_ok taken]
  refine (rest faces'.behind).followed ?_
  rintro ys c'' ⟨rfl, faces''⟩
  exact ⟨y :: ys, c'', rfl, rfl, faces''⟩

end Lists

/-! ## Paths -/

theorem members_read (place : Position) {t : Token} (noDot : t.isSymbol .dot = false) :
    ∀ {names : List String} {allowance : Nat}, names.length ≤ allowance → ∀ {c : Cursor},
      Faces serial c ((names.flatMap fun name => [.symbol .dot, .name name]) ++ t :: more) →
      ∃ c', members place allowance c = .ok (names, c') ∧ Faces serial c' (t :: more)
  | [], 0, _, c, faces => ⟨c, rfl, faces⟩
  | [], allowance + 1, _, c, faces => by
      refine ⟨c, ?_, faces⟩
      rw [members, bind_of_ok (faces.check .dot), noDot]
      rfl
  | _ :: _, 0, enough, _, _ => absurd enough (Nat.not_succ_le_zero _)
  | name :: names, allowance + 1, enough, c, faces => by
      simp only [List.flatMap_cons, List.cons_append, List.nil_append] at faces
      obtain ⟨_, dot, -⟩ := faces.advance
      obtain ⟨member, taken, shown⟩ := faces.behind.advance
      have behind := faces.behind.pass (by simp)
      obtain ⟨c', others, faces'⟩ := members_read place noDot (Nat.le_of_succ_le_succ enough) behind
      refine ⟨c', ?_, faces'⟩
      rw [members, bind_of_ok (faces.check .dot), isSymbol_self]
      simp only [if_true]
      rw [bind_of_ok dot, bind_of_ok taken]
      simp only [shown]
      rw [bind_of_ok others]
      rfl

section Primary

variable {ctx : Context} {inner : Inner} {levels : Nat}

/-- The names of a path are read, and what stands behind them decides what becomes of it. -/
theorem path_read {p : Path} (visible : IsVisible ctx p) {t : Token}
    (noDot : t.isSymbol .dot = false) {c : Cursor}
    (faces : Faces serial c (pathTokens p ++ t :: more)) :
    ∃ place c', Faces serial c' (t :: more) ∧ primary ctx inner levels c =
      (do
        if ← check .lParen then
          let _ ← advance
          let args ← bracketed (do expressionList (inner.expression levels) .rParen (← remaining))
          call ctx p args place
        else reference ctx p place : Parser Tree) c' := by
  obtain ⟨_ | ⟨root, others⟩⟩ := p
  · exact absurd rfl visible.spelled.nonempty
  have plain : root ≠ "true" ∧ root ≠ "false" ∧ root ≠ keyword := visible.plain
  rw [Pi.pathTokens_cons, List.cons_append] at faces
  obtain ⟨first, taken, shown⟩ := faces.advance
  have behind := faces.pass (by simp)
  have enough : others.length ≤
      ((others.flatMap fun name => [Token.symbol .dot, .name name]) ++ t :: more).length := by
    simp only [List.length_append, List.length_flatMap, List.length_cons, List.length_nil,
      List.map_const', List.sum_replicate_nat]
    omega
  obtain ⟨c', names, faces'⟩ := members_read first.place noDot enough behind
  refine ⟨first.place, c', faces', ?_⟩
  have named : primary ctx inner levels c =
      path ctx (inner.expression levels) root first.place c.behind := by
    rw [primary, bind_of_ok taken]
    refine congrFun ?_ c.behind
    obtain ⟨noTrue, noFalse, noKeyword⟩ := plain
    split <;> simp_all
  rw [named, path, bind_of_ok behind.remaining, bind_of_ok names]

theorem requireRoot_of_bound {p : Path} (bound : ctx.isBound p.root = true) (place : Position)
    (c : Cursor) :
    sees ctx p.root c = .ok (true, c) ∧ requireRoot ctx p place c = .ok ((), c) := by
  have seen : sees ctx p.root c = .ok (true, c) := by
    change Except.ok (c.names.any (·.contains p.root) || ctx.isBound p.root, c) = _
    rw [bound, Bool.or_true]
  refine ⟨seen, ?_⟩
  rw [requireRoot, bind_of_ok seen]
  rfl

theorem reference_takes {p : Path} (visible : IsVisible ctx p) {t : Token}
    (noDot : t.isSymbol .dot = false) (noParen : t.isSymbol .lParen = false) :
    Takes serial (primary ctx inner levels) True (pathTokens p) (t :: more) (.reference p) := by
  intro c faces
  obtain ⟨place, c', faces', read⟩ := path_read visible noDot faces
  rw [read, bind_of_ok (faces'.check .lParen), noParen]
  simp only [Bool.false_eq_true, if_false]
  rw [reference, bind_of_ok (requireRoot_of_bound visible.bound place c').2]
  exact .of_ok trivial rfl ⟨rfl, faces'⟩

theorem call_takes {p : Path} (visible : IsVisible ctx p) {args : List Tree}
    (each : ∀ allowance, (ts ++ u :: more).length ≤ allowance →
      Takes serial (expressionList (inner.expression levels) .rParen allowance) fits ts
        (u :: more) args) :
    Takes serial (primary ctx inner levels) fits (pathTokens p ++ .symbol .lParen :: ts) (u :: more)
      (.invoke p args) := by
  intro c faces
  rw [List.append_assoc] at faces
  obtain ⟨place, c', faces', read⟩ := path_read visible rfl faces
  obtain ⟨_, taken, -⟩ := faces'.advance
  have behind : Faces serial c'.behind (ts ++ u :: more) := faces'.pass (by simp)
  rw [read, bind_of_ok (faces'.check .lParen), isSymbol_self]
  simp only [if_true]
  rw [bind_of_ok taken]
  refine (bracketed_takes (remaining_takes each) behind).followed ?_
  rintro ys c'' ⟨rfl, faces''⟩
  refine ⟨.invoke p ys, c'', ?_, rfl, faces''⟩
  obtain ⟨seen, required⟩ := requireRoot_of_bound visible.bound place c''
  rw [call, bind_of_ok seen]
  simp only [Bool.not_true, Bool.and_false, Bool.false_and, Bool.false_eq_true, if_false]
  rw [bind_of_ok required]
  rfl

/-! ## Literals, parentheses and lists -/

/-- The value of a token that is a literal. -/
def literal? : Token → Option Value
  | .int i => some (.int i)
  | .str s => some (.str s)
  | .name "true" => some (.bool true)
  | .name "false" => some (.bool false)
  | _ => none

theorem literal_takes {t : Token} {v : Value} (is : literal? t = some v) :
    Takes serial (primary ctx inner levels) True [t] (u :: more) (.literal v) := by
  intro c faces
  obtain ⟨first, taken, shown⟩ := faces.advance
  rw [primary, bind_of_ok taken]
  refine .of_ok trivial (?_ : _ = Except.ok (_, c.behind)) ⟨rfl, faces.behind⟩
  unfold literal? at is
  split at is <;> cases is <;> simp only [shown] <;> rfl

theorem parentheses_take {x : Tree}
    (inside : Takes serial (inner.expression levels) fits ts (.symbol .rParen :: u :: more) x) :
    Takes serial (primary ctx inner levels) fits (.symbol .lParen :: (ts ++ [.symbol .rParen]))
      (u :: more) x := by
  intro c faces
  obtain ⟨first, taken, shown⟩ := faces.advance
  have behind := faces.pass (by simp)
  rw [primary, bind_of_ok taken]
  simp only [shown]
  have enclosed : Takes serial (do
      let result ← inner.expression levels
      expect .rParen "')'"
      return result) fits (ts ++ [.symbol .rParen]) (u :: more) x := by
    intro c faces
    rw [List.append_assoc] at faces
    refine (inside faces).followed ?_
    rintro y c' ⟨rfl, faces'⟩
    refine ⟨y, c'.behind, ?_, rfl, faces'.behind⟩
    rw [bind_of_ok (faces'.expect _)]
    rfl
  exact bracketed_takes enclosed behind

theorem list_takes {items : List Tree}
    (each : ∀ allowance, (ts ++ u :: more).length ≤ allowance →
      Takes serial (expressionList (inner.expression levels) .rBracket allowance) fits ts
        (u :: more) items) :
    Takes serial (primary ctx inner levels) fits (.symbol .lBracket :: ts) (u :: more)
      (Parser.list items) := by
  intro c faces
  obtain ⟨first, taken, shown⟩ := faces.advance
  have behind := faces.pass (by simp)
  rw [primary, bind_of_ok taken]
  simp only [shown]
  refine (bracketed_takes (remaining_takes each) behind).followed ?_
  rintro ys c' ⟨rfl, faces'⟩
  exact ⟨_, c', rfl, rfl, faces'⟩

/-! ## Functions -/

theorem listed_cons (part next : List Token) (rest : List (List Token)) :
    listed (part :: next :: rest) = part ++ .symbol .comma :: listed (next :: rest) := by
  rw [listed, List.intercalate_cons_cons, List.append_assoc]
  rfl

theorem length_le_intercalate (mark : Symbol) {parts : List (List Token)}
    (nonempty : ∀ part ∈ parts, part ≠ []) :
    parts.length ≤ ([Token.symbol mark].intercalate parts).length := by
  induction parts with
  | nil => exact Nat.le_refl 0
  | cons part rest ih =>
      obtain ⟨first, others⟩ := List.forall_mem_cons.mp nonempty
      have pos := List.length_pos_iff.mpr first
      cases rest with
      | nil => simpa [Nat.succ_le_iff] using pos
      | cons next rest =>
          have more := ih others
          rw [List.intercalate_cons_cons]
          simp only [List.length_append, List.length_cons, List.length_nil] at more ⊢
          omega

theorem parameters_read : ∀ {names : List String} {allowance : Nat}, names.length < allowance →
    ∀ {c : Cursor},
    Faces serial c (listed (names.map fun name => [.name name]) ++ .symbol .rParen :: u :: more) →
    ∃ c', parameters allowance c = .ok (names, c') ∧ Faces serial c' (u :: more)
  | names, 0, enough, _, _ => absurd enough (Nat.not_lt_zero _)
  | [], allowance + 1, _, c, faces => by
      obtain ⟨first, taken, shown⟩ := faces.advance
      refine ⟨c.behind, ?_, faces.behind⟩
      rw [parameters, bind_of_ok taken]
      simp only [shown]
      rfl
  | [name], allowance + 1, enough, c, faces => by
      obtain ⟨first, taken, shown⟩ := faces.advance
      obtain ⟨c₁, defined, rest, numbered⟩ := define_eq name c.behind
      have faces₁ := faces.behind.changed rest numbered
      obtain ⟨c', others, faces'⟩ :=
        parameters_read
          (show ([] : List String).length < allowance from Nat.lt_of_succ_lt_succ enough) faces₁
      refine ⟨c', ?_, faces'⟩
      rw [parameters, bind_of_ok taken]
      simp only [shown]
      rw [bind_of_ok defined, bind_of_ok (faces₁.check .comma)]
      simp only [Token.isSymbol, reduceCtorEq, decide_false, Bool.false_eq_true, if_false]
      rw [bind_of_ok others]
      rfl
  | name :: second :: names, allowance + 1, enough, c, faces => by
      rw [List.map_cons, List.map_cons, listed_cons, List.append_assoc] at faces
      obtain ⟨first, taken, shown⟩ := faces.advance
      obtain ⟨c₁, defined, rest, numbered⟩ := define_eq name c.behind
      have faces₁ := faces.behind.changed rest numbered
      obtain ⟨_, passed, -⟩ := faces₁.advance
      have few : (second :: names).length < allowance := Nat.lt_of_succ_lt_succ enough
      obtain ⟨c', others, faces'⟩ := parameters_read few (faces₁.pass (by simp))
      refine ⟨c', ?_, faces'⟩
      rw [parameters, bind_of_ok taken]
      simp only [shown]
      rw [bind_of_ok defined, bind_of_ok (faces₁.check .comma), isSymbol_self]
      simp only [if_true]
      rw [bind_of_ok passed, bind_of_ok others]
      rfl

/-- The statements of a function and the brace behind them. -/
theorem block_takes {statements : Closing → Parser (List Tree)} {body : List Tree}
    (inside : Takes serial (statements .brace) fits ts (.symbol .rBrace :: u :: more) body) :
    Takes serial (block statements) fits (ts ++ [.symbol .rBrace]) (u :: more)
      (.sequence body) := by
  intro c faces
  rw [List.append_assoc] at faces
  have current : (get : Parser Cursor) c = .ok (c, c) := rfl
  have unbracketed : (modify fun c => { c with brackets := 0 } : Parser PUnit) c =
    .ok ((), c.withBrackets 0) := rfl
  rw [block, bind_of_ok current, bind_of_ok unbracketed]
  have entered : Faces serial (c.withBrackets 0) _ := faces.changed rfl rfl
  refine (inside entered).followed ?_
  rintro trees c' ⟨rfl, faces'⟩
  obtain ⟨_, taken, -⟩ := faces'.advance
  refine ⟨.sequence trees, c'.behind.withBrackets c.brackets, ?_, rfl,
    faces'.behind.changed rfl rfl⟩
  rw [bind_of_ok (faces'.check .rBrace), isSymbol_self]
  simp only [if_true]
  rw [bind_of_ok taken]
  rfl

theorem function_takes {params : List String} {body : List Tree}
    (inside : Takes serial (inner.statements levels .brace) fits ts
      (.symbol .rBrace :: u :: more) body) :
    Takes serial (primary ctx inner levels) fits
      (.name keyword :: .symbol .lParen :: (listed (params.map fun name => [.name name]) ++
        .symbol .rParen :: .symbol .lBrace :: (ts ++ [.symbol .rBrace]))) (u :: more)
      (.literal (.closure params (.sequence body) none)) := by
  intro c faces
  obtain ⟨first, taken, shown⟩ := faces.advance
  have behind := faces.pass (by simp)
  have opened := behind.pass (by simp)
  rw [primary, bind_of_ok taken]
  simp only [shown]
  change Ends fits (function (inner.statements levels) c.behind) _
  rw [function, bind_of_ok (behind.expect _)]
  have parameterized : Takes serial (do
      let params ← bracketed (do parameters (← remaining))
      expect .lBrace "'\x7b'"
      return Tree.literal (.closure params (← block (inner.statements levels)) none)) fits
      (listed (params.map fun name => [.name name]) ++ .symbol .rParen :: .symbol .lBrace ::
        (ts ++ [.symbol .rBrace])) (u :: more)
        (Tree.literal (.closure params (.sequence body) none)) := by
    intro c faces
    have named : Takes serial (do parameters (← remaining)) True
        (listed (params.map fun name => [.name name]) ++ [.symbol .rParen])
        (.symbol .lBrace :: (ts ++ .symbol .rBrace :: u :: more)) params := by
      refine remaining_takes fun allowance enough c faces => ?_
      rw [List.append_assoc] at faces
      have fewer : params.length < allowance := by
        have parts :=
          @length_le_intercalate .comma (params.map fun name => [Token.name name]) (by simp)
        rw [List.length_map] at parts
        simp only [List.length_append, List.length_cons, listed] at enough
        omega
      obtain ⟨c', read, faces'⟩ := parameters_read fewer faces
      exact .of_ok trivial read ⟨rfl, faces'⟩
    have faces : Faces serial c
        ((listed (params.map fun name => [.name name]) ++ [.symbol .rParen]) ++
        .symbol .lBrace :: (ts ++ .symbol .rBrace :: u :: more)) := by
      simpa only [List.append_assoc, List.cons_append, List.nil_append] using faces
    refine ((bracketed_takes named faces).bind ?_).congr (Iff.of_eq (true_and fits))
    rintro names c' ⟨rfl, faces'⟩
    rw [bind_of_ok (faces'.expect _)]
    have body := faces'.pass (by simp)
    have body : Faces serial c'.behind ((ts ++ [.symbol .rBrace]) ++ u :: more) := by
      simpa only [List.append_assoc, List.cons_append, List.nil_append] using body
    refine (block_takes inside body).followed ?_
    rintro tree c'' ⟨rfl, faces''⟩
    exact ⟨_, c'', rfl, rfl, faces''⟩
  exact body_takes parameterized opened

/-! ## Prefix operators -/

/-- What begins with no prefix operator. -/
theorem unary_of_primary {x : Tree} {t : Token} (plain : t ≠ .symbol .bang ∧ t ≠ .symbol .minus)
    (takes : Takes serial (primary ctx inner levels) fits (t :: ts) more x) :
    Takes serial (unary ctx inner levels) fits (t :: ts) more x := by
  intro c faces
  have same : unary ctx inner levels c = primary ctx inner levels c := by
    rw [unary, bind_of_ok faces.peek]
    refine congrFun ?_ c
    split
    · exact absurd rfl plain.1
    · exact absurd rfl plain.2
    · rfl
  rw [same]
  exact takes faces

variable {x : Tree} {need : Nat}

theorem not_takes
    (operand : ∀ levels, Takes serial (inner.unary levels) (need ≤ levels) ts (u :: more) x) :
    Takes serial (unary ctx inner levels) (need + 1 ≤ levels) (.symbol .bang :: ts) (u :: more)
      (.op .not [x]) := by
  intro c faces
  obtain ⟨_, taken, -⟩ := faces.advance
  rw [unary, bind_of_ok faces.peek]
  simp only
  rw [bind_of_ok taken]
  refine (nested_takes operand levels (faces.pass (by simp))).followed ?_
  rintro y c' ⟨rfl, faces'⟩
  exact ⟨_, c', rfl, rfl, faces'⟩

theorem minus_takes
    (operand : ∀ levels, Takes serial (inner.unary levels) (need ≤ levels) ts (u :: more) x) :
    Takes serial (unary ctx inner levels) (need + 1 ≤ levels) (.symbol .minus :: ts) (u :: more)
      (negated x) := by
  intro c faces
  obtain ⟨_, taken, -⟩ := faces.advance
  rw [unary, bind_of_ok faces.peek]
  simp only
  rw [bind_of_ok taken]
  refine (nested_takes operand levels (faces.pass (by simp))).followed ?_
  rintro y c' ⟨rfl, faces'⟩
  exact ⟨_, c', rfl, rfl, faces'⟩

end Primary

/-! ## Operators between operands -/

/-- A token that may stand behind an expression of a certain level: it goes on neither with a path
nor with an operator of the level or a tighter one. -/
structure Stops (level : Nat) (t : Token) : Prop where
  noDot : t.isSymbol .dot = false
  noParen : t.isSymbol .lParen = false
  loose : ∀ operators ∈ precedence.drop level, operatorOf? operators t = none

theorem Stops.mono {low high : Nat} {t : Token} (h : Stops low t) (le : low ≤ high) :
    Stops high t where
  noDot := h.noDot
  noParen := h.noParen
  loose operators mem := h.loose operators (by
    rw [← Nat.sub_add_cancel le, Nat.add_comm, ← List.drop_drop] at mem
    exact List.mem_of_mem_drop mem)

/-- The operators of the level of an operator, which is none of a tighter level. -/
theorem operators_at {o : Operator} (two : o.arity = 2) : ∃ operators,
    precedence.drop o.level = operators :: precedence.drop (o.level + 1) ∧
      operatorOf? operators (.symbol o.mark) = some o ∧ Stops (o.level + 1) (.symbol o.mark) := by
  cases o
  case not | neg => exact nomatch two
  all_goals exact ⟨_, rfl, rfl, rfl, rfl, by decide⟩

section Binary

variable {operand : Parser Tree} {level : Nat} {x y : Tree} {fits' : Prop} {ts' : List Token}

variable (serial operand) in
/-- The tokens are an operand at the level. -/
def IsOperand (level : Nat) (fits : Prop) (ts : List Token) (x : Tree) : Prop :=
  ∀ ⦃t more⦄, Stops level t →
    Takes serial (binary operand (precedence.drop level)) fits ts (t :: more) x

variable (serial operand) in
/-- The tokens are read at the level, and then a chain of operators of this level goes on with what
stands behind them. -/
def Leads (level : Nat) (fits : Prop) (ts : List Token) (x : Tree) : Prop :=
  ∀ ⦃operators t more c⦄, precedence.drop level = operators :: precedence.drop (level + 1) →
    Stops (level + 1) t → Faces serial c (ts ++ t :: more) →
    (fits ∧ ∃ c' allowance, Faces serial c' (t :: more) ∧ more.length < allowance ∧
      binary operand (precedence.drop level) c =
        chain operators (binary operand (precedence.drop (level + 1))) allowance x c') ∨
    (¬ fits ∧ ∃ place, binary operand (precedence.drop level) c =
      .error (.malformed place (.nestingTooDeep nestingLimit)))

/-- An operand of a tighter level is the first of a chain. -/
theorem IsOperand.leads (h : IsOperand serial operand (level + 1) fits ts x) :
    Leads serial operand level fits ts x := by
  intro operators t more c shape stops faces
  rw [shape, binary]
  rcases h stops faces with ⟨enough, y, c', read, rfl, faces'⟩ | ⟨few, place, complains⟩
  · refine .inl ⟨enough, c', _, faces', Nat.lt_succ_self _, ?_⟩
    rw [bind_of_ok read, bind_of_ok faces'.remaining]
    rfl
  · refine .inr ⟨few, place, ?_⟩
    change (binary operand (precedence.drop (level + 1)) c >>= fun r => _) = _
    rw [complains]
    rfl

/-- A chain ends in front of what is no operator of its level. -/
theorem Leads.isOperand (h : Leads serial operand level fits ts x) (binary_ : level < 6) :
    IsOperand serial operand level fits ts x := by
  intro t more stops c faces
  have shape : precedence.drop level = precedence[level] :: precedence.drop (level + 1) :=
    List.drop_eq_getElem_cons binary_
  rcases h shape (stops.mono (Nat.le_succ level)) faces with
    ⟨enough, c', allowance, faces', -, read⟩ | ⟨few, place, complains⟩
  · rw [read]
    refine .of_ok enough (?_ : _ = Except.ok (x, c')) ⟨rfl, faces'⟩
    have none := stops.loose precedence[level] (shape ▸ List.mem_cons_self)
    cases allowance with
    | zero => rfl
    | succ allowance =>
        rw [chain, bind_of_ok faces'.peek, none]
        rfl
  · exact .inr ⟨few, place, complains⟩

/-- A chain takes an operator of its level and the operand behind it. -/
theorem Leads.operator {o : Operator} (two : o.arity = 2)
    (left : Leads serial operand o.level fits ts x)
    (right : IsOperand serial operand (o.level + 1) fits' ts' y) :
    Leads serial operand o.level (fits ∧ fits') (ts ++ .symbol o.mark :: ts') (.op o [x, y]) := by
  intro operators t more c shape stops faces
  obtain ⟨_, shape', found, looser⟩ := operators_at two
  obtain rfl := (List.cons.inj (shape.symm.trans shape')).1
  rw [List.append_assoc] at faces
  rcases left shape looser faces with ⟨enough, c₁, allowance, faces₁, room, read⟩
      | ⟨few, place, complains⟩
  · obtain ⟨_, taken, -⟩ := faces₁.advance
    obtain ⟨rounds, rfl⟩ := Nat.exists_eq_succ_of_ne_zero (Nat.ne_of_gt (Nat.zero_lt_of_lt room))
    have step : binary operand (precedence.drop o.level) c = (do
        let right ← binary operand (precedence.drop (o.level + 1))
        chain operators (binary operand (precedence.drop (o.level + 1))) rounds (.op o [x, right]) :
          Parser Tree)
        c₁.behind := by
      rw [read, chain, bind_of_ok faces₁.peek, found]
      simp only
      rw [bind_of_ok taken]
    have behind : Faces serial c₁.behind (ts' ++ t :: more) := faces₁.pass (by simp)
    rw [step]
    rcases right stops behind with ⟨enough', _, c₂, read', rfl, faces₂⟩ | ⟨few, place, complains⟩
    · refine .inl ⟨⟨enough, enough'⟩, c₂, rounds, faces₂, ?_, bind_of_ok read'⟩
      simp only [List.append_eq, List.length_append, List.length_cons] at room
      omega
    · refine .inr ⟨fun both => few both.2, place, ?_⟩
      change (binary operand (precedence.drop (o.level + 1)) c₁.behind >>= fun r => _) = _
      rw [complains]
      rfl
  · exact .inr ⟨fun both => few both.1, place, complains⟩

end Binary

end Laws

end PeerScript.Script.Rho
