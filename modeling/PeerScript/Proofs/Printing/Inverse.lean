import Mathlib.Data.Nat.Init
import PeerScript.Proofs.Printing.Parsing

/-!
# Reading back what was printed

Every expression is read at every level of precedence at which it may stand.  An expression is first
read at its own level, from there at all looser ones, then in parentheses at the tightest one, and
from there at those between the tightest one and its own.

The readers of an expression are those of some storey of the tower.  Each construct that an
expression stands in takes a token at least, so the storeys are counted in tokens.
-/

set_option autoImplicit false

namespace PeerScript.Script.Rho

open PeerScript.Script.Parser
open Encoder (pathTokens appliedTokens)

/-! ## What an expression opens with -/

/-- The tokens are those of an expression and not of a binding: behind a name in front there is
neither a name nor an equals sign. -/
structure Opens (ts : List Token) : Prop where
  begins : Begins ts
  unbound : ∀ name u rest, ts = .name name :: u :: rest → u ≠ .symbol .assign ∧
    ∀ other, u ≠ .name other

theorem Opens.ne_nil {ts : List Token} (h : Opens ts) : ts ≠ [] := by
  obtain ⟨t, rest, rfl, -⟩ := h.begins
  exact List.cons_ne_nil t rest

theorem Opens.append {ts : List Token} (h : Opens ts) {t : Token}
    (other : t ≠ .symbol .assign ∧ ∀ name, t ≠ .name name) (more : List Token) :
    Opens (ts ++ t :: more) := by
  refine ⟨h.begins.append _, ?_⟩
  rintro name u rest same
  obtain ⟨front, others, rfl, -⟩ := h.begins
  cases others with
  | nil =>
      obtain ⟨rfl, rfl⟩ := List.cons.inj (List.cons.inj same).2
      exact other
  | cons v others =>
      obtain ⟨rfl, rfl, -⟩ := (List.cons.inj same).imp id List.cons.inj
      exact h.unbound name v others rfl

theorem opens_of_plain {t : Token} {ts : List Token} (plain : ∀ name, t ≠ .name name)
    (begins : Begins (t :: ts)) :
    Opens (t :: ts) :=
  ⟨begins, fun name _ _ same => absurd (List.cons.inj same).1 (plain name)⟩

theorem opens_symbol {mark : Symbol} (ts : List Token)
    (notClosing : mark ∉ [Symbol.rParen, .rBracket, .rBrace, .semi]) : Opens (.symbol mark :: ts) :=
  opens_of_plain nofun
    ⟨_, ts, rfl, nofun, fun _ mem same => notClosing (Token.symbol.inj same ▸ mem)⟩

theorem opens_name {name : String} : Opens [.name name] :=
  ⟨⟨_, [], rfl, nofun, nofun⟩, nofun⟩

theorem opens_enclosed {ts : List Token} (h : Opens ts) (asked level : Nat) :
    Opens (enclosed asked level ts) := by
  unfold enclosed
  split
  · exact opens_symbol _ (by decide)
  · exact h

theorem path_begins {p : Path} (spelled : p.IsSpelled) :
    ∃ root rest, pathTokens p = .name root :: rest := by
  obtain ⟨_ | ⟨root, others⟩⟩ := p
  · exact absurd rfl spelled.nonempty
  · exact ⟨root, _, Pi.pathTokens_cons root others⟩

theorem opens_path {p : Path} (spelled : p.IsSpelled) : Opens (pathTokens p) := by
  obtain ⟨_ | ⟨root, others⟩⟩ := p
  · exact absurd rfl spelled.nonempty
  rw [Pi.pathTokens_cons]
  cases others with
  | nil => exact opens_name
  | cons member others => exact opens_name.append (t := .symbol .dot) ⟨nofun, nofun⟩ _

theorem Expression.IsWritten.opens {ctx : Context} {e : Expression} (h : e.IsWritten ctx) :
    Opens e.tokens := by
  cases e with
  | bool _ =>
      rw [Expression.tokens]
      exact opens_name
  | int i =>
      rw [Expression.tokens]
      split
      · exact opens_symbol _ (by decide)
      · exact opens_of_plain (fun _ => Token.noConfusion)
          ⟨_, [], rfl, Token.noConfusion, fun _ _ => Token.noConfusion⟩
  | str _ =>
      rw [Expression.tokens]
      exact opens_of_plain (fun _ => Token.noConfusion)
        ⟨_, [], rfl, Token.noConfusion, fun _ _ => Token.noConfusion⟩
  | reference _ =>
      rw [Expression.IsWritten] at h
      rw [Expression.tokens]
      exact opens_path h.spelled
  | call _ _ =>
      rw [Expression.IsWritten] at h
      rw [Expression.tokens]
      exact (opens_path h.1.spelled).append
        (t := .symbol .lParen) ⟨by rintro ⟨⟩, fun _ => Token.noConfusion⟩ _
  | list _ =>
      rw [Expression.tokens]
      exact opens_symbol _ (by decide)
  | function _ _ =>
      rw [Expression.tokens]
      exact opens_name.append (t := .symbol .lParen) ⟨by rintro ⟨⟩, fun _ => Token.noConfusion⟩ _
  | binary operator left right =>
      rw [Expression.IsWritten] at h
      rw [Expression.tokens]
      refine (opens_enclosed h.2.1.opens _ _).append ?_ _
      cases operator <;> exact ⟨by rintro ⟨⟩, fun _ => Token.noConfusion⟩
  | unary operator _ =>
      rw [Expression.IsWritten] at h
      rw [Expression.tokens]
      refine opens_symbol _ ?_
      obtain ⟨one, -⟩ := h
      cases operator
      case not | neg => decide
      all_goals cases one
termination_by structural e

/-! ## Levels of precedence -/

theorem enclosed_of_le {asked level : Nat} (le : asked ≤ level) (ts : List Token) :
    enclosed asked level ts = ts ∧ enclosures asked level = 0 :=
  ⟨if_neg (Nat.not_lt.mpr le), if_neg (Nat.not_lt.mpr le)⟩

theorem enclosed_of_lt {asked level : Nat} (lt : level < asked) (ts : List Token) :
    enclosed asked level ts = .symbol .lParen :: (ts ++ [.symbol .rParen]) ∧
    enclosures asked level = 1 :=
  ⟨if_pos lt, if_pos lt⟩

/-- Only at the level of an expression itself it makes a difference whether the next one is asked
for. -/
theorem enclosed_succ {asked level : Nat} (ne : asked ≠ level) (ts : List Token) :
    enclosed (asked + 1) level ts = enclosed asked level ts ∧
      enclosures (asked + 1) level = enclosures asked level := by
  rcases Nat.lt_or_gt_of_ne ne with lt | lt
  · rw [(enclosed_of_le lt ts).1, (enclosed_of_le lt ts).2, (enclosed_of_le (Nat.le_of_lt lt) ts).1,
      (enclosed_of_le (Nat.le_of_lt lt) ts).2]
    exact ⟨rfl, rfl⟩
  · rw [(enclosed_of_lt (Nat.lt_succ_of_lt lt) ts).1, (enclosed_of_lt (Nat.lt_succ_of_lt lt) ts).2,
      (enclosed_of_lt lt ts).1, (enclosed_of_lt lt ts).2]
    exact ⟨rfl, rfl⟩

namespace Expression

section Levels

variable (ctx : Context)

/-- Where the level is asked for, the expression is read as an operand. -/
def OperandAt (asked : Nat) (e : Expression) : Prop :=
  ∀ ⦃serial height levels⦄, (enclosed asked e.level e.tokens).length ≤ height + 1 →
    IsOperand serial (Rho.unary ctx (tower ctx height) levels) asked
      (e.nesting + enclosures asked e.level ≤ levels) (enclosed asked e.level e.tokens) e.tree

/-- Where the level is asked for, the expression is read and a chain of its operators goes on behind
it. -/
def LeadsAt (asked : Nat) (e : Expression) : Prop :=
  ∀ ⦃serial height levels⦄, (enclosed asked e.level e.tokens).length ≤ height + 1 →
    Leads serial (Rho.unary ctx (tower ctx height) levels) asked
      (e.nesting + enclosures asked e.level ≤ levels) (enclosed asked e.level e.tokens) e.tree

/-- The expression is read wherever it may stand. -/
structure IsRead (e : Expression) : Prop where
  opens : Opens e.tokens
  operand : ∀ asked ≤ 6, e.OperandAt ctx asked
  leads : ∀ asked < 6, e.LeadsAt ctx asked

variable {ctx} {e : Expression} {asked : Nat}

theorem OperandAt.leads (h : e.OperandAt ctx (asked + 1)) (ne : asked ≠ e.level) :
    e.LeadsAt ctx asked := by
  obtain ⟨sameTokens, sameDepth⟩ := enclosed_succ ne e.tokens
  intro serial height levels room
  rw [← sameTokens] at room ⊢
  rw [← sameDepth]
  exact (h room).leads

theorem LeadsAt.operand (h : e.LeadsAt ctx asked) (lt : asked < 6) : e.OperandAt ctx asked :=
  fun _ _ _ room => (h room).isOperand lt

/-- What is read at a level is read at the looser ones down to its own. -/
theorem OperandAt.loosen {high low : Nat} (h : e.OperandAt ctx high) (bound : high ≤ 6)
    (le : low ≤ high) (between : ∀ level, low ≤ level → level < high → level ≠ e.level) :
    e.OperandAt ctx low :=
  Nat.decreasingInduction' (P := e.OperandAt ctx)
    (fun level lt ge next => (next.leads (between level ge lt)).operand
      (Nat.lt_of_lt_of_le lt bound)) le h

theorem OperandAt.expression (h : e.OperandAt ctx 0) {serial height levels : Nat} {t : Token}
    {more : List Token} (room : e.tokens.length ≤ height + 1) (stops : Stops 0 t) :
    Takes serial ((tower ctx (height + 1)).expression levels) (e.nesting + 1 ≤ levels)
      e.tokens (t :: more) e.tree := by
  obtain ⟨sameTokens, sameDepth⟩ := enclosed_of_le (Nat.zero_le e.level) e.tokens
  refine nested_takes (fun levels => ?_) levels
  have reads : Takes serial (Rho.binary (Rho.unary ctx (tower ctx height) levels) precedence)
      (e.nesting + enclosures 0 e.level ≤ levels) (enclosed 0 e.level e.tokens)
      (t :: more) e.tree :=
    h (sameTokens ▸ room) stops
  rw [sameTokens, sameDepth] at reads
  exact reads

/-- In parentheses, what is read at all may stand behind a prefix operator. -/
theorem OperandAt.parenthesized (h : e.OperandAt ctx 0) (loose : e.level < 6) :
    e.OperandAt ctx 6 := by
  obtain ⟨wrapped, deeper⟩ := enclosed_of_lt loose e.tokens
  intro serial height levels room t more stops
  rw [wrapped, List.length_cons, List.length_append, List.length_singleton] at room
  obtain ⟨below, rfl⟩ := Nat.exists_eq_succ_of_ne_zero (show height ≠ 0 by omega)
  rw [wrapped, deeper]
  refine unary_of_primary ⟨nofun, nofun⟩ ?_
  exact parentheses_take (h.expression (by omega) ⟨rfl, rfl, by decide⟩)

theorem IsRead.of_tight (opens : Opens e.tokens) (tight : e.level = 6) (h : e.OperandAt ctx 6) :
    e.IsRead ctx := by
  have operand : ∀ asked ≤ 6, e.OperandAt ctx asked := fun asked le =>
    h.loosen (Nat.le_refl 6) le fun level _ lt => tight ▸ Nat.ne_of_lt lt
  exact ⟨opens, operand, fun asked lt => (operand (asked + 1) lt).leads (tight ▸ Nat.ne_of_lt lt)⟩

theorem IsRead.of_leads (opens : Opens e.tokens) (loose : e.level < 6) (h : e.LeadsAt ctx e.level) :
    e.IsRead ctx := by
  have looser : ∀ asked ≤ e.level, e.OperandAt ctx asked := fun asked le =>
    (h.operand loose).loosen (Nat.le_of_lt loose) le fun level _ lt => Nat.ne_of_lt lt
  have tightest : e.OperandAt ctx 6 := (looser 0 (Nat.zero_le _)).parenthesized loose
  have operand : ∀ asked ≤ 6, e.OperandAt ctx asked := fun asked le => by
    rcases Nat.lt_or_ge e.level asked with lt | ge
    · exact tightest.loosen (Nat.le_refl 6) le fun level ge _ => Nat.ne_of_gt
        (Nat.lt_of_lt_of_le lt ge)
    · exact looser asked ge
  refine ⟨opens, operand, fun asked lt => ?_⟩
  by_cases same : asked = e.level
  · exact same ▸ h
  · exact (operand (asked + 1) lt).leads same

theorem IsRead.expression (h : e.IsRead ctx) {serial height levels : Nat} {t : Token}
    {more : List Token} (room : e.tokens.length ≤ height + 1) (stops : Stops 0 t) :
    Takes serial ((tower ctx (height + 1)).expression levels) (e.nesting + 1 ≤ levels)
      e.tokens (t :: more) e.tree := (h.operand 0 (Nat.zero_le 6)).expression room stops

end Levels

end Expression

/-! ## Expressions in a row -/

theorem length_le_of_mem_intercalate {mark : Token} {part : List Token} {parts : List (List Token)}
    (mem : part ∈ parts) : part.length ≤ ([mark].intercalate parts).length := by
  induction parts with
  | nil => exact absurd mem List.not_mem_nil
  | cons first rest ih =>
      cases rest with
      | nil =>
          obtain rfl := List.mem_singleton.mp mem
          exact Nat.le_of_eq (by simp)
      | cons next rest =>
          rw [List.intercalate_cons_cons, List.length_append, List.length_append]
          rcases List.mem_cons.mp mem with rfl | mem
          · omega
          · have := ih mem
            omega

theorem Expression.allTokens_eq_map :
    ∀ es : List Expression, Expression.allTokens es = es.map Expression.tokens
  | [] => rfl
  | e :: rest => by rw [Expression.allTokens, Expression.allTokens_eq_map rest, List.map_cons]

theorem Statement.allTokens_eq_map : ∀ statements : List Statement,
    Statement.allTokens statements = statements.map Statement.tokens
  | [] => rfl
  | statement :: rest => by rw [Statement.allTokens, Statement.allTokens_eq_map rest, List.map_cons]

theorem stops_comma : Stops 0 (.symbol .comma) := ⟨rfl, rfl, by decide⟩

theorem stops_closing {close : Symbol} (closes : close ∈ [Symbol.rParen, .rBracket]) :
    Stops 0 (.symbol close) := by
  simp only [List.mem_cons, List.not_mem_nil, or_false] at closes
  rcases closes with rfl | rfl <;> exact ⟨rfl, rfl, by decide⟩

section Rows

variable {ctx : Context} {serial height levels : Nat} {u : Token} {more : List Token}

/-- Expressions up to what closes them, read by the storey below. -/
theorem expressions_take {close : Symbol} (closes : close ∈ [Symbol.rParen, .rBracket]) :
    ∀ {es : List Expression} {allowance : Nat}, (∀ e ∈ es, e.IsRead ctx) →
      (∀ e ∈ es, e.tokens.length ≤ height + 1) → es.length < allowance →
      Takes serial (expressionList ((tower ctx (height + 1)).expression levels) close allowance)
        (Expression.deepest es ≤ levels) (listed (es.map Expression.tokens) ++ [.symbol close])
    (u :: more) (Expression.trees es)
  | [], 0, _, _, few | [_], 0, _, _, few | _ :: _ :: _, 0, _, _, few =>
    absurd few (Nat.not_lt_zero _)
  | [_], 1, _, _, few => absurd few (Nat.lt_irrefl 1)
  | [], allowance + 1, _, _, _ => fun c faces => by
      rw [Expression.deepest, Expression.trees]
      exact .of_ok (Nat.zero_le levels) (expressionList_none faces) ⟨rfl, faces.behind⟩
  | [e], allowance + 2, read, room, _ => by
      obtain ⟨first, -⟩ := List.forall_mem_cons.mp read
      obtain ⟨low, -⟩ := List.forall_mem_cons.mp room
      simp only [Expression.trees, Expression.deepest, Nat.max_zero, listed,
        List.map_cons, List.map_nil, List.intercalate_singleton]
      exact expressionList_last closes first.opens.begins
        (first.expression low (stops_closing closes))
  | e :: next :: rest, allowance + 1, read, room, few => by
      obtain ⟨first, others⟩ := List.forall_mem_cons.mp read
      obtain ⟨low, lower⟩ := List.forall_mem_cons.mp room
      have behind := expressions_take closes others lower (Nat.lt_of_succ_lt_succ few)
      rw [Expression.trees, Expression.deepest, List.map_cons, List.map_cons, listed_cons]
      have both :=
        expressionList_cons closes first.opens.begins (first.expression low stops_comma) (by simp)
        behind
      rw [List.append_assoc]
      exact fun c faces => (both faces).congr Nat.max_le.symm

/-! ## Statements in a row -/

/-- The expression of a statement. -/
def Statement.value : Statement → Expression
  | .bind _ e | .run e => e

theorem Faces.second {c : Cursor} {ts : List Token} {t : Token} (faces : Faces serial c (t :: ts)) :
    (c.rest.drop 1).head?.map Placed.token = ts.head? := by
  rw [← List.head?_map, List.map_drop, faces.shows]
  rfl

theorem statement_takes {t : Token} (stops : Stops 0 t)
    (other : t ≠ .symbol .assign ∧ ∀ name, t ≠ .name name) {s : Statement}
    (read : s.value.IsRead ctx) (room : s.value.tokens.length ≤ height + 1) :
    Takes serial (statement ctx (tower ctx height) levels) (s.nesting + 1 ≤ levels)
      s.tokens (t :: more) s.tree := by
  intro c faces
  have current : (get : Parser Cursor) c = .ok (c, c) := rfl
  cases s with
  | bind name e =>
      rw [Statement.tokens] at faces
      rw [Statement.nesting, Statement.tree, statement, bind_of_ok current, bind_of_ok faces.peek,
        faces.second]
      obtain ⟨_, name', -⟩ := faces.advance
      obtain ⟨_, mark, -⟩ := faces.behind.advance
      obtain ⟨c', defined, rest, numbered⟩ := define_eq name c.behind.behind
      have faces' : Faces serial c' (e.tokens ++ t :: more) :=
        (faces.behind.pass (by simp)).changed rest numbered
      change Ends _ ((do
        let _ ← advance
        let _ ← advance
        define name
        return .bind name (← expression ctx (tower ctx height) levels) : Parser Tree) c) _
      rw [bind_of_ok name', bind_of_ok mark, bind_of_ok defined]
      refine (read.expression room stops faces').followed ?_
      rintro y c'' ⟨rfl, faces''⟩
      exact ⟨_, c'', rfl, rfl, faces''⟩
  | run e =>
      rw [Statement.tokens] at faces
      rw [Statement.nesting, Statement.tree]
      have whole : statement ctx (tower ctx height) levels c =
          (tower ctx (height + 1)).expression levels c := by
        have alone : Opens e.tokens := read.opens
        have opens := alone.append other more
        obtain ⟨front, others, shape, -⟩ := opens.begins
        rw [shape] at faces opens
        rw [statement, bind_of_ok current, bind_of_ok faces.peek, faces.second]
        refine congrFun ?_ c
        split
        · rename_i second
          obtain ⟨behind, rfl⟩ := List.head?_eq_some_iff.mp second
          exact absurd rfl ((opens.unbound _ _ behind rfl).2 _)
        · rename_i second
          obtain ⟨behind, rfl⟩ := List.head?_eq_some_iff.mp second
          exact absurd rfl (opens.unbound _ _ behind rfl).1
        · rfl
      rw [whole]
      exact read.expression room stops faces

theorem separators_pass {lead : List Token} (semis : ∀ v ∈ lead, v = .symbol .semi)
    (plain : u ≠ .symbol .semi) {c : Cursor} (faces : Faces serial c (lead ++ u :: more)) :
    ∃ c', (modify fun c => { c with rest := c.rest.dropWhile separates } : Parser PUnit) c =
      .ok ((), c') ∧ Faces serial c' (u :: more) := by
  refine ⟨_, rfl, ?_, fun v mem => faces.plain v (List.mem_append_right lead mem), faces.numbered⟩
  have counts : separates = (fun t => separates ⟨t, .start⟩) ∘ Placed.token := rfl
  have stays : separates ⟨u, .start⟩ = false := by
    have noBreak := faces.plain u (by simp)
    unfold separates
    split
    · rename_i same
      obtain rfl : u = .newline := same
      exact nomatch noBreak
    · rename_i same
      exact absurd same plain
    · rfl
  change (c.rest.dropWhile separates).map Placed.token = _
  rw [counts, ← List.dropWhile_map, faces.shows,
    List.dropWhile_append_of_pos fun v mem => by rw [semis v mem]; rfl, List.dropWhile_cons_of_neg]
  rw [stays]
  exact Bool.false_ne_true

theorem Begins.isAt_eq {t : Token} {rest : List Token} (h : Begins (t :: rest))
    (closing : Closing) :
    closing.isAt t = false := by
  obtain ⟨_, _, same, noFinish, noBrace⟩ := h
  cases same
  unfold Closing.isAt
  split
  · exact absurd rfl (noBrace .rBrace (by decide))
  · exact absurd rfl noFinish
  · rfl

theorem statementsWith_stops {closing : Closing} {close : Token}
    (closes : closing.isAt close = true) {lead : List Token} (semis : ∀ v ∈ lead, v = .symbol .semi)
    {read : Parser Tree} (allowance : Nat) :
    Takes serial (statementsWith read closing (allowance + 1)) True lead (close :: more) [] := by
  intro c faces
  have noSemi : close ≠ .symbol .semi := by
    rintro rfl
    exact nomatch closes
  obtain ⟨c', passed, faces'⟩ := separators_pass semis noSemi faces
  rw [statementsWith, bind_of_ok passed, bind_of_ok (here_eq c'), faces'.next, closes, Bool.true_or]
  exact .of_ok trivial rfl ⟨rfl, faces'⟩

theorem statementsWith_cons {closing : Closing} {lead ts ts' : List Token} {read : Parser Tree}
    {fits fits' : Prop} {x : Tree} {xs : List Tree} {allowance : Nat} {t : Token}
    {tail : List Token} (semis : ∀ v ∈ lead, v = .symbol .semi) (begins : Begins ts)
    (behind : ts' ++ more = t :: tail) (ends : t = .symbol .semi ∨ closing.isAt t = true)
    (first : Takes serial read fits ts (t :: tail) x)
    (rest : Takes serial (statementsWith read closing allowance) fits' ts' more xs) :
    Takes serial (statementsWith read closing (allowance + 1)) (fits ∧ fits')
      (lead ++ (ts ++ ts')) more (x :: xs) := by
  intro c faces
  rw [List.append_assoc, List.append_assoc, behind] at faces
  obtain ⟨front, others, rfl, -, noMark⟩ := id begins
  obtain ⟨c', passed, faces'⟩ := separators_pass semis (noMark .semi (by decide)) faces
  rw [statementsWith, bind_of_ok passed, bind_of_ok (here_eq c'), faces'.next, begins.isAt_eq,
    begins.isAt_eq]
  simp only [Bool.or_self, Bool.false_eq_true, if_false]
  refine (first faces').bind ?_
  rintro y c₁ ⟨rfl, faces₁⟩
  have separating : (separates c₁.next || closing.isAt c₁.next.token) = true := by
    have shown := faces₁.next
    rcases ends with rfl | closes
    · rw [separates, shown, Bool.true_or]
    · rw [shown, closes, Bool.or_true]
  rw [bind_of_ok (here_eq c₁), separating]
  simp only [if_true]
  rw [← behind] at faces₁
  refine (rest faces₁).followed ?_
  rintro ys c₂ ⟨rfl, faces₂⟩
  exact ⟨_, c₂, rfl, rfl, faces₂⟩

theorem stops_semi : Stops 0 (.symbol .semi) := ⟨rfl, rfl, by decide⟩

theorem stops_of_isAt {closing : Closing} {close : Token} (closes : closing.isAt close = true) :
    Stops 0 close ∧ close ≠ .symbol .assign ∧ ∀ name, close ≠ .name name := by
  unfold Closing.isAt at closes
  split at closes
  · exact ⟨⟨rfl, rfl, by decide⟩, nofun, nofun⟩
  · exact ⟨⟨rfl, rfl, by decide⟩, nofun, nofun⟩
  · exact nomatch closes

theorem Statement.begins_of_opens : ∀ {s : Statement}, Opens s.value.tokens → Begins s.tokens
  | .bind name e, _ => by
      rw [Statement.tokens]
      exact ⟨_, _, rfl, nofun, nofun⟩
  | .run e, opens => by
      rw [Statement.tokens]
      exact opens.begins

theorem separated_cons (part next : List Token) (rest : List (List Token)) :
    separated (part :: next :: rest) = part ++ .symbol .semi :: separated (next :: rest) := by
  rw [separated, List.intercalate_cons_cons, List.append_assoc]
  rfl

/-- Statements up to what closes them, read with the storey below. -/
theorem statements_take {closing : Closing} {close : Token} (closes : closing.isAt close = true) :
    ∀ {body : List Statement} {lead : List Token} {allowance : Nat},
      (∀ v ∈ lead, v = .symbol .semi) →
      (∀ s ∈ body, s.value.IsRead ctx) → (∀ s ∈ body, s.value.tokens.length ≤ height + 1) →
      body.length < allowance →
      Takes serial (statementsWith (statement ctx (tower ctx height) levels) closing allowance)
        (Statement.deepest body ≤ levels) (lead ++ separated (body.map Statement.tokens))
    (close :: more) (Statement.trees body)
  | [], _, 0, _, _, _, few | [_], _, 0, _, _, _, few | _ :: _ :: _, _, 0, _, _, _, few =>
      absurd few (Nat.not_lt_zero _)
  | [_], _, 1, _, _, _, few => absurd few (Nat.lt_irrefl 1)
  | [], lead, allowance + 1, semis, _, _, _ => by
      rw [Statement.deepest, Statement.trees, List.map_nil, separated, List.intercalate_nil,
        List.append_nil]
      exact fun c faces => (statementsWith_stops closes semis allowance faces).congr
        (iff_of_true trivial (Nat.zero_le levels))
  | [s], lead, allowance + 2, semis, read, room, _ => by
      obtain ⟨first, -⟩ := List.forall_mem_cons.mp read
      obtain ⟨low, -⟩ := List.forall_mem_cons.mp room
      obtain ⟨stops, other⟩ := stops_of_isAt closes
      have rest : Takes serial
          (statementsWith (statement ctx (tower ctx height) levels) closing (allowance + 1))
          True [] (close :: more) [] :=
            statementsWith_stops closes (List.forall_mem_nil _) allowance
      have both :=
        statementsWith_cons semis (Statement.begins_of_opens first.opens) rfl (.inr closes)
        (statement_takes stops other first low) rest
      rw [List.append_nil] at both
      rw [Statement.trees, Statement.trees, Statement.deepest, Statement.deepest,
        separated, List.map_cons, List.map_nil, List.intercalate_singleton, Nat.max_zero]
      exact fun c faces => (both faces).congr (and_iff_left trivial)
  | s :: next :: rest, lead, allowance + 1, semis, read, room, few => by
      obtain ⟨first, others⟩ := List.forall_mem_cons.mp read
      obtain ⟨low, lower⟩ := List.forall_mem_cons.mp room
      have semi : ∀ v ∈ [Token.symbol .semi], v = .symbol .semi := fun _ => List.mem_singleton.mp
      have behind := statements_take closes semi others lower (Nat.lt_of_succ_lt_succ few)
      have both := statementsWith_cons semis (Statement.begins_of_opens first.opens) rfl (.inl rfl)
        (statement_takes stops_semi ⟨nofun, nofun⟩ first low) behind
      rw [Statement.trees, Statement.deepest, List.map_cons, List.map_cons, separated_cons]
      exact fun c faces => (both faces).congr Nat.max_le.symm

end Rows

/-! ## All that is written is read -/

section Written

variable {ctx : Context}

/-- The expressions to which no prefix operator or operator between operands has been applied. -/
theorem Expression.IsRead.of_primary {e : Expression} (opens : Opens e.tokens) (tight : e.level = 6)
    (plain : ∀ mark rest, e.tokens = .symbol mark :: rest → mark ≠ .bang ∧ mark ≠ .minus)
    (reads : ∀ ⦃serial height levels t more⦄, e.tokens.length ≤ height + 1 → Stops 6 t →
      Takes serial (primary ctx (tower ctx height) levels) (e.nesting ≤ levels) e.tokens
        (t :: more) e.tree) :
    e.IsRead ctx := by
  refine .of_tight opens tight fun serial height levels room t more stops => ?_
  obtain ⟨same, depth⟩ := enclosed_of_le (Nat.le_of_eq tight.symm) e.tokens
  rw [same] at room ⊢
  rw [depth]
  obtain ⟨front, rest, shape, -⟩ := opens.begins
  have takes : Takes serial (primary ctx (tower ctx height) levels)
      (e.nesting ≤ levels) e.tokens (t :: more) e.tree := reads room stops
  rw [shape] at takes ⊢
  refine unary_of_primary ?_ takes
  constructor
  · rintro rfl
    exact (plain _ rest shape).1 rfl
  · rintro rfl
    exact (plain _ rest shape).2 rfl

theorem isRead_bool (b : Bool) : (Expression.bool b).IsRead ctx := by
  refine .of_primary ?_ rfl ?_ fun serial height levels t more _ _ => ?_
  · rw [Expression.tokens]
    exact opens_name
  · rw [Expression.tokens]
    exact nofun
  · rw [Expression.tokens, Expression.tree, Expression.nesting]
    refine Takes.congr (literal_takes ?_) (iff_of_true trivial (Nat.zero_le levels))
    cases b <;> rfl

theorem isRead_str (text : String) : (Expression.str text).IsRead ctx := by
  refine .of_primary ?_ rfl ?_ fun serial height levels t more _ _ => ?_
  · rw [Expression.tokens]
    exact opens_of_plain nofun ⟨_, [], rfl, nofun, nofun⟩
  · rw [Expression.tokens]
    exact nofun
  · rw [Expression.tokens, Expression.tree, Expression.nesting]
    exact Takes.congr (literal_takes rfl) (iff_of_true trivial (Nat.zero_le levels))

theorem isRead_int {i : Int64} (h : (Expression.int i).IsWritten ctx) :
    (Expression.int i).IsRead ctx := by
  by_cases negative : i.toInt < 0
  · refine .of_tight h.opens rfl fun serial height levels room t more _ => ?_
    have tight : (Expression.int i).level = 6 := rfl
    rw [tight, (enclosed_of_le (Nat.le_refl 6) _).1, Expression.tokens, if_pos negative] at room ⊢
    rw [Expression.tree, Expression.nesting, if_pos negative, (enclosed_of_le (Nat.le_refl 6) []).2]
    obtain ⟨below, rfl⟩ := Nat.exists_eq_succ_of_ne_zero (show height ≠ 0 by simp at room; omega)
    have numeral : ∀ levels, Takes serial ((tower ctx (below + 1)).unary levels)
        (0 ≤ levels) [.int (-i)] (t :: more) (.literal (.int (-i))) := fun levels =>
      unary_of_primary ⟨nofun, nofun⟩
        (Takes.congr (literal_takes rfl) (iff_of_true trivial (Nat.zero_le levels)))
    have takes : Takes serial (unary ctx (tower ctx (below + 1)) levels) (0 + 1 ≤ levels)
        [.symbol .minus, .int (-i)] (t :: more) (negated (.literal (.int (-i)))) :=
          minus_takes numeral
    rw [negated, Int64.neg_neg] at takes
    exact takes
  · refine .of_primary h.opens rfl ?_ fun serial height levels t more _ _ => ?_
    · rw [Expression.tokens, if_neg negative]
      exact nofun
    · rw [Expression.tokens, Expression.tree, Expression.nesting, if_neg negative, if_neg negative]
      exact Takes.congr (literal_takes rfl) (iff_of_true trivial (Nat.zero_le levels))

theorem isRead_reference {path : Path} (h : (Expression.reference path).IsWritten ctx) :
    (Expression.reference path).IsRead ctx := by
  refine .of_primary h.opens rfl ?_ fun serial height levels t more _ stops => ?_
  all_goals rw [Expression.IsWritten] at h
  · obtain ⟨root, rest, shape⟩ := path_begins h.spelled
    rw [Expression.tokens, shape]
    exact nofun
  · rw [Expression.tokens, Expression.tree, Expression.nesting]
    exact Takes.congr (reference_takes h stops.noDot stops.noParen)
      (iff_of_true trivial (Nat.zero_le levels))

theorem lt_of_listed {es : List Expression} (read : ∀ e ∈ es, e.IsRead ctx)
    {close : Symbol} {u : Token} {more : List Token} {allowance : Nat}
    (enough : ((listed (es.map Expression.tokens) ++ [Token.symbol close]) ++ u :: more).length ≤
      allowance) :
    es.length < allowance := by
  have nonempty : ∀ part ∈ es.map Expression.tokens, part ≠ [] := fun part mem => by
    obtain ⟨e, among, rfl⟩ := List.mem_map.mp mem
    exact (read e among).opens.ne_nil
  have parts := length_le_intercalate .comma nonempty
  simp only [List.length_append, List.length_map, List.length_cons, listed] at parts enough
  omega

theorem length_le_of_listed {es : List Expression} {bound : Nat}
    (room : (listed (es.map Expression.tokens)).length ≤ bound) :
    ∀ e ∈ es, e.tokens.length ≤ bound :=
  fun _ mem => Nat.le_trans (length_le_of_mem_intercalate (List.mem_map_of_mem mem)) room

theorem isRead_call {path : Path} {args : List Expression}
    (h : (Expression.call path args).IsWritten ctx) (read : ∀ e ∈ args, e.IsRead ctx) :
    (Expression.call path args).IsRead ctx := by
  refine .of_primary h.opens rfl ?_ fun serial height levels t more room stops => ?_
  all_goals rw [Expression.IsWritten] at h
  · obtain ⟨root, rest, shape⟩ := path_begins h.1.spelled
    rw [Expression.tokens, shape]
    exact nofun
  · rw [Expression.tokens, appliedTokens, Expression.allTokens_eq_map] at room ⊢
    rw [Expression.tree, Expression.nesting]
    simp only [List.length_append, List.length_cons, List.length_nil] at room
    obtain ⟨below, rfl⟩ := Nat.exists_eq_succ_of_ne_zero (show height ≠ 0 by omega)
    have short : (listed (args.map Expression.tokens)).length ≤ below + 1 := by
      rw [listed]
      omega
    refine call_takes h.1 fun allowance enough => ?_
    exact expressions_take (by decide) read (length_le_of_listed short) (lt_of_listed read enough)

theorem isRead_list {items : List Expression} (read : ∀ e ∈ items, e.IsRead ctx) :
    (Expression.list items).IsRead ctx := by
  refine .of_primary ?_ rfl ?_ fun serial height levels t more room stops => ?_
  · rw [Expression.tokens]
    exact opens_symbol _ (by decide)
  · rw [Expression.tokens]
    rintro mark rest same
    obtain rfl := Token.symbol.inj (List.cons.inj same).1
    decide
  · rw [Expression.tokens, Expression.allTokens_eq_map] at room ⊢
    rw [Expression.tree, Expression.nesting]
    simp only [List.length_append, List.length_cons, List.length_nil] at room
    obtain ⟨below, rfl⟩ := Nat.exists_eq_succ_of_ne_zero (show height ≠ 0 by omega)
    refine list_takes fun allowance enough => ?_
    exact expressions_take (by decide) read (length_le_of_listed (by omega))
      (lt_of_listed read enough)

theorem length_value_le : ∀ s : Statement, s.value.tokens.length ≤ s.tokens.length
  | .bind name e => by
      rw [Statement.tokens]
      exact Nat.le_add_right e.tokens.length 2
  | .run e => by
      rw [Statement.tokens]
      exact Nat.le_refl e.tokens.length

theorem length_le_of_separated {body : List Statement} {bound : Nat}
    (room : (separated (body.map Statement.tokens)).length ≤ bound) :
    ∀ s ∈ body, s.value.tokens.length ≤ bound :=
  fun s mem => Nat.le_trans (length_value_le s)
    (Nat.le_trans (length_le_of_mem_intercalate (List.mem_map_of_mem mem)) room)

theorem lt_of_separated {body : List Statement} (read : ∀ s ∈ body, s.value.IsRead ctx)
    {more : List Token} {u : Token} {allowance : Nat}
    (enough : (separated (body.map Statement.tokens) ++ u :: more).length ≤ allowance) :
    body.length < allowance := by
  have nonempty : ∀ part ∈ body.map Statement.tokens, part ≠ [] := fun part mem => by
    obtain ⟨s, among, rfl⟩ := List.mem_map.mp mem
    obtain ⟨t, rest, shape, -⟩ := Statement.begins_of_opens (read s among).opens
    exact shape ▸ List.cons_ne_nil t rest
  have parts := length_le_intercalate .semi nonempty
  simp only [List.length_append, List.length_map, List.length_cons, separated] at parts enough
  omega

theorem isRead_function {params : List String} {body : List Statement}
    (read : ∀ s ∈ body, s.value.IsRead ctx) : (Expression.function params body).IsRead ctx := by
  refine .of_primary ?_ rfl ?_ fun serial height levels t more room stops => ?_
  · rw [Expression.tokens]
    exact opens_name.append (t := .symbol .lParen) ⟨nofun, nofun⟩ _
  · rw [Expression.tokens]
    exact nofun
  · rw [Expression.tokens, Statement.allTokens_eq_map] at room ⊢
    rw [Expression.tree, Expression.nesting]
    simp only [List.length_append, List.length_cons, List.length_nil] at room
    obtain ⟨below, rfl⟩ := Nat.exists_eq_succ_of_ne_zero (show height ≠ 0 by omega)
    refine function_takes (remaining_takes fun allowance enough => ?_)
    exact statements_take rfl (List.forall_mem_nil _) read (length_le_of_separated (by omega))
      (lt_of_separated read enough)

theorem isRead_binary {o : Operator} {left right : Expression}
    (h : (Expression.binary o left right).IsWritten ctx) (first : left.IsRead ctx)
    (second : right.IsRead ctx) :
    (Expression.binary o left right).IsRead ctx := by
  have opens := h.opens
  rw [Expression.IsWritten] at h
  have loose : o.level < 6 := by
    obtain ⟨two, -⟩ := h
    cases o
    case not | neg => exact nomatch two
    all_goals decide
  refine .of_leads opens loose fun serial height levels room => ?_
  have level : (Expression.binary o left right).level = o.level := rfl
  rw [level, (enclosed_of_le (Nat.le_refl o.level) _).1, Expression.tokens] at room ⊢
  rw [(enclosed_of_le (Nat.le_refl o.level) []).2, Expression.tree, Expression.nesting]
  simp only [List.length_append, List.length_cons] at room
  have leads : Leads serial (unary ctx (tower ctx height) levels) o.level
      (left.nesting + enclosures o.level left.level ≤ levels)
      (enclosed o.level left.level left.tokens)
      left.tree := first.leads o.level loose (by omega)
  have behind : IsOperand serial (unary ctx (tower ctx height) levels) (o.level + 1)
      (right.nesting + enclosures (o.level + 1) right.level ≤ levels)
      (enclosed (o.level + 1) right.level right.tokens) right.tree :=
    second.operand (o.level + 1) loose (by omega)
  have both := leads.operator h.1 behind
  rw [Nat.add_zero, Nat.max_le]
  exact both

/-- The operand of a minus is no numeral, which would be negated at once. -/
theorem negated_tree : ∀ {e : Expression}, (∀ i, e ≠ .int i) → negated e.tree = .op .neg [e.tree]
  | .int i, no => absurd rfl (no i)
  | .list items, _ => by
      rw [Expression.tree, Parser.list]
      split <;> rfl
  | .bool _, _ | .str _, _ | .reference _, _ | .call _ _, _ | .function _ _, _ | .binary _ _ _, _
  | .unary _ _, _ => by
      rw [Expression.tree]
      rfl

theorem isRead_unary {o : Operator} {operand : Expression}
    (h : (Expression.unary o operand).IsWritten ctx) (read : operand.IsRead ctx) :
    (Expression.unary o operand).IsRead ctx := by
  refine .of_tight h.opens rfl fun serial height levels room t more stops => ?_
  have tight : (Expression.unary o operand).level = 6 := rfl
  rw [tight, (enclosed_of_le (Nat.le_refl 6) _).1, Expression.tokens] at room ⊢
  rw [(enclosed_of_le (Nat.le_refl 6) []).2, Expression.tree, Expression.nesting]
  rw [List.length_cons] at room
  have pos := List.length_pos_iff.mpr (opens_enclosed read.opens 6 operand.level).ne_nil
  obtain ⟨below, rfl⟩ := Nat.exists_eq_succ_of_ne_zero (show height ≠ 0 by omega)
  have inside : ∀ levels, Takes serial ((tower ctx (below + 1)).unary levels)
      (operand.nesting + enclosures 6 operand.level ≤ levels)
      (enclosed 6 operand.level operand.tokens)
      (t :: more) operand.tree := fun levels =>
    read.operand 6 (Nat.le_refl 6) (Nat.le_of_succ_le_succ room) stops
  rw [Expression.IsWritten] at h
  obtain ⟨one, noNumeral, -⟩ := h
  cases o
  case not => exact not_takes inside
  case neg =>
    have takes : Takes serial (unary ctx (tower ctx (below + 1)) levels)
        (operand.nesting + enclosures 6 operand.level + 1 ≤ levels)
        (.symbol .minus :: enclosed 6 operand.level operand.tokens) (t :: more)
        (negated operand.tree) :=
      minus_takes inside
    rw [negated_tree (noNumeral rfl)] at takes
    exact takes
  all_goals exact nomatch one

mutual

theorem Expression.IsWritten.isRead : ∀ {e : Expression}, e.IsWritten ctx → e.IsRead ctx
  | .bool b, _ => isRead_bool b
  | .int _, h => isRead_int h
  | .str text, _ => isRead_str text
  | .reference _, h => isRead_reference h
  | .call path args, h => isRead_call h (by
      rw [Expression.IsWritten] at h
      exact h.2.isRead)
  | .list items, h => isRead_list (by
      rw [Expression.IsWritten] at h
      exact h.isRead)
  | .function params body, h => isRead_function (by
      rw [Expression.IsWritten] at h
      exact h.2.isRead)
  | .binary _ left right, h => isRead_binary h
      (by
        rw [Expression.IsWritten] at h
        exact h.2.1.isRead)
      (by
        rw [Expression.IsWritten] at h
        exact h.2.2.isRead)
  | .unary _ operand, h => isRead_unary h (by
      rw [Expression.IsWritten] at h
      exact h.2.2.isRead)

theorem Expression.AreWritten.isRead : ∀ {es : List Expression}, Expression.AreWritten ctx es →
    ∀ e ∈ es, e.IsRead ctx
  | [], _ => nofun
  | _ :: _, h => by
      rw [Expression.AreWritten] at h
      exact List.forall_mem_cons.mpr ⟨h.1.isRead, h.2.isRead⟩

theorem Statement.IsWritten.isRead : ∀ {s : Statement}, s.IsWritten ctx → s.value.IsRead ctx
  | .bind _ e, h => by
      rw [Statement.IsWritten] at h
      exact h.2.isRead
  | .run e, h => by
      rw [Statement.IsWritten] at h
      exact h.isRead

theorem Statement.AreWritten.isRead :
    ∀ {statements : List Statement}, Statement.AreWritten ctx statements →
    ∀ s ∈ statements, s.value.IsRead ctx
  | [], _ => nofun
  | _ :: _, h => by
      rw [Statement.AreWritten] at h
      exact List.forall_mem_cons.mpr ⟨h.1.isRead, h.2.isRead⟩

end

end Written

end PeerScript.Script.Rho

namespace PeerScript

open Script.Rho

/-- Scripts in the language of statements where the roots of all paths are bound are read from their
tokens, however these are laid out, up to the nesting limit.  Deeper ones are refused. -/
theorem parse_of_lexes {ctx : Script.Context} {statements : List Statement}
    (written : Statement.AreWritten ctx statements) {source : String}
    (lexes : Script.Lexes source.toList (separated (Statement.allTokens statements) ++ [.finish]))
    (serial : Nat) :
    (Statement.deepest statements ≤ Script.nestingLimit →
      Script.parse .rho ctx source serial = .ok (.sequence (Statement.trees statements), serial)) ∧
    (Script.nestingLimit < Statement.deepest statements →
      ∃ place, Script.parse .rho ctx source serial =
        .error (.malformed place (.nestingTooDeep Script.nestingLimit))) := by
  obtain ⟨placed, cut, shown⟩ := lexes .start
  have printed : ∀ t ∈ separated (Statement.allTokens statements), IsPrinted t :=
    forall_mem_intercalate (P := IsPrinted) (isPrinted_symbol _) written.printed
  have plain : ∀ t ∈ separated (Statement.allTokens statements) ++ [.finish], t.isNewline = false :=
    List.forall_mem_append.mpr
      ⟨fun t mem => (printed t mem).2, List.forall_mem_singleton.mpr rfl⟩
  have faces : Faces serial ⟨placed, 0, [[]], serial⟩
      (separated (Statement.allTokens statements) ++ [.finish]) := ⟨shown, plain, rfl⟩
  have room : (separated (Statement.allTokens statements)).length ≤ placed.length + 1 := by
    have length := congrArg List.length shown
    rw [List.length_map, List.length_append] at length
    omega
  have read : Takes serial ((tower ctx (placed.length + 1)).statements Script.nestingLimit .finish)
      (Statement.deepest statements ≤ Script.nestingLimit)
      (separated (Statement.allTokens statements)) [.finish]
      (Statement.trees statements) := by
    rw [Statement.allTokens_eq_map] at room ⊢
    refine remaining_takes fun allowance enough => ?_
    exact statements_take rfl (List.forall_mem_nil _) written.isRead (length_le_of_separated room)
      (lt_of_separated written.isRead enough)
  have tokenized : Script.tokenize source = .ok placed := cut
  have parsed : Script.parse .rho ctx source serial = Script.Rho.parse ctx placed serial := by
    rw [Script.parse, tokenized]
  rw [parsed, Script.Rho.parse]
  dsimp only
  rcases read faces with ⟨fits, trees, c, ran, rfl, faces'⟩ | ⟨deep, place, stops⟩
  · refine ⟨fun _ => ?_, fun deep => absurd fits (Nat.not_le_of_lt deep)⟩
    rw [← faces'.numbered] at ran ⊢
    rw [ran]
    rfl
  · refine ⟨fun fits => absurd fits deep, fun _ => ⟨place, ?_⟩⟩
    rw [stops]
    rfl

/-- Reading undoes printing of scripts in the language of statements, in every scope where the roots
of their paths are bound, exactly up to the nesting limit. -/
theorem parse_print {ctx : Script.Context} {statements : List Statement}
    (written : Statement.AreWritten ctx statements) (serial : Nat) :
    (Statement.deepest statements ≤ Script.nestingLimit →
      Script.parse .rho ctx (Statement.print statements) serial =
        .ok (.sequence (Statement.trees statements), serial)) ∧
    (Script.nestingLimit < Statement.deepest statements →
      ∃ place, Script.parse .rho ctx (Statement.print statements) serial =
        .error (.malformed place (.nestingTooDeep Script.nestingLimit))) := by
  have printed : ∀ t ∈ separated (Statement.allTokens statements), IsPrinted t :=
    forall_mem_intercalate (P := IsPrinted) (isPrinted_symbol _) written.printed
  refine parse_of_lexes written ?_ serial
  rw [Statement.print, String.toList_ofList]
  exact lexes_spaced false fun t mem => (printed t mem).1

/-- A script with parentheses on both sides of its operators, prefixes of operands and of numerals,
and a function among the arguments of a call. -/
def assorted : List Statement :=
  [.bind "y"
    (.binary .mul (.binary .sub (.reference ⟨["x"]⟩) (.int 1)) (.unary .neg (.reference ⟨["x"]⟩))),
   .run (.binary .sub (.int (-3)) (.binary .sub (.int 2) (.int 1))),
   .run (.call ⟨["x", "put"]⟩ [.function ["a"] [.run (.unary .not (.binary .or (.bool true)
      (.reference ⟨["x"]⟩)))], .list [.int 1, .str "s"]])]

theorem parse_print_assorted :
    Statement.print assorted = "y = ( x - 1 ) * -x ; -3 - ( 2 - 1 ) ; " ++
      "x . put ( fun ( a ) \x7b ! ( true || x ) \x7d , [ 1 , \"s\" ] ) " ∧
    Script.parse .rho ⟨fun name => name == "x", .standard⟩ (Statement.print assorted) 7 =
      .ok (.sequence [
        .bind "y" (.op .mul [.op .sub [.reference ⟨["x"]⟩, .literal (.int 1)],
          .op .neg [.reference ⟨["x"]⟩]]),
        .op .sub [.literal (.int (-3)), .op .sub [.literal (.int 2), .literal (.int 1)]],
        .invoke ⟨["x", "put"]⟩ [
          .literal (.closure ["a"]
            (.sequence [.op .not [.op .or [.literal (.bool true), .reference ⟨["x"]⟩]]])
            none),
          .literal (.list [.int 1, .str "s"])]], 7) := by
  have bound : IsVisible ⟨fun name => name == "x", .standard⟩ ⟨["x"]⟩ :=
    ⟨⟨by decide, by decide⟩, by decide, rfl⟩
  have member : IsVisible ⟨fun name => name == "x", .standard⟩ ⟨["x", "put"]⟩ :=
    ⟨⟨by decide, by decide⟩, by decide, rfl⟩
  have written : Statement.AreWritten ⟨fun name => name == "x", .standard⟩ assorted := by
    simp only [assorted, Statement.AreWritten, Statement.IsWritten, Expression.IsWritten,
      Expression.AreWritten, bound, member, ne_eq, reduceCtorEq, not_false_eq_true, implies_true]
    decide
  exact ⟨by rfl, (parse_print written 7).1 (by decide)⟩

end PeerScript
