import PeerScript.Proofs.Cursors
import PeerScript.Script.Language

/-!
# Where readers complain

A reader complains of a token that it has in front of it or has read before, and names the place of
that token.  `Reports` says so of a parser: what is known of the places of the tokens in front of it
is known of the place of its complaint, and of the places of the tokens behind it.  There is one law
for each primitive reader, and one for a reader behind another one; the readers of both languages
are put together from these.
-/

set_option autoImplicit false

namespace PeerScript

open Text (Position)

/-- Whether a complaint is about the letter behind a backslash, of which only the scanner
complains. -/
def Complaint.isEscape : Complaint → Bool
  | .unknownEscape _ => true
  | _ => false

/-- What a reader may fail with: a complaint, or a name that is not visible, at a place of which
something is known. -/
inductive Fault.Points (P : Position → Prop) : Fault → Prop
  | malformed {place : Position} {complaint : Complaint} : P place → complaint.isEscape = false →
      Fault.Points P (.malformed place complaint)
  | unknownName {place : Position} {name : String} : P place →
    Fault.Points P (.unknownName place name)

namespace Script

/-- Of the place of each token that a cursor has in front of it, the end of the script included,
something is known. -/
structure Cursor.Stands (P : Position → Prop) (c : Cursor) : Prop where
  start : P .start
  rest : ∀ t ∈ c.rest, P t.place

namespace Cursor.Stands

variable {P : Position → Prop} {c : Cursor} (h : c.Stands P)

include h

theorem next : P c.next.place := by
  rw [Cursor.next]
  cases shape : c.rest with
  | nil => exact h.start
  | cons t rest => exact h.rest t (shape ▸ List.mem_cons_self)

theorem mono {d : Cursor} (fewer : d.rest ⊆ c.rest) : d.Stands P :=
  ⟨h.start, fun t mem => h.rest t (fewer mem)⟩

theorem settled : c.settled.Stands P := by
  rw [Cursor.settled]
  split
  · exact h.mono (List.dropWhile_suffix _).subset
  · exact h

theorem behind : c.behind.Stands P := by
  rw [Cursor.behind]
  split
  · rename_i first second rest shape
    exact h.mono (shape ▸ List.subset_cons_self first (second :: rest))
  · exact h

end Cursor.Stands

/-- In front of tokens at places of which something is known, a parser returns only what is right,
in front of such tokens again, or it fails at such a place. -/
def Reports (P : Position → Prop) {α : Type} (p : Parser α) (right : α → Prop) : Prop :=
  ∀ ⦃c : Cursor⦄, c.Stands P →
    match p c with
    | .ok (a, c') => right a ∧ c'.Stands P
    | .error fault => fault.Points P

namespace Reports

open Script.Parser

variable {P : Position → Prop} {α β : Type} {p : Parser α} {f : α → Parser β} {right : α → Prop}
  {right₂ : β → Prop}

theorem pure {a : α} (isRight : right a) : Reports P (Pure.pure a) right :=
  fun _ stands => ⟨isRight, stands⟩

theorem bind (first : Reports P p right) (next : ∀ a, right a → Reports P (f a) right₂) :
    Reports P (p >>= f) right₂ := by
  intro c stands
  have before := first stands
  change match p c >>= fun r => f r.1 r.2 with
    | .ok (b, c') => right₂ b ∧ c'.Stands P
    | .error fault => fault.Points P
  cases ran : p c with
  | error fault =>
      rw [ran] at before
      exact before
  | ok r =>
      rw [ran] at before
      exact next r.1 before.1 before.2

/-- Behind a parser whatever it returns. -/
theorem andThen (first : Reports P p right) (next : ∀ a, Reports P (f a) right₂) :
    Reports P (p >>= f) right₂ :=
  first.bind fun a _ => next a

theorem throw {fault : Fault} (points : fault.Points P) :
    Reports P (throw fault : Parser α) right :=
  fun _ _ => points

theorem complainAt {place : Position} (known : P place) {complaint : Complaint}
    (noEscape : complaint.isEscape = false) :
    Reports P (complainAt place complaint : Parser α) right :=
  throw (.malformed known noEscape)

/-! ### Looking at tokens -/

/-- A step that passes over tokens at most. -/
theorem step {g : Cursor → Cursor} (rest : ∀ c, (g c).rest ⊆ c.rest) :
    Reports P (modify g : Parser PUnit) fun _ => True :=
  fun c stands => ⟨trivial, stands.mono (rest c)⟩

/-- A step that reads nothing. -/
theorem aside {g : Cursor → Cursor} (rest : ∀ c, (g c).rest = c.rest) :
    Reports P (modify g : Parser PUnit) fun _ => True :=
  step fun c => (rest c).symm ▸ List.Subset.refl _

theorem get : Reports P get fun c => c.Stands P := fun _ stands => ⟨stands, stands⟩

theorem set {c : Cursor} (stands : c.Stands P) : Reports P (set c : Parser PUnit) fun _ => True :=
  fun _ _ => ⟨trivial, stands⟩

theorem here : Reports P here fun t => P t.place := fun _ stands => ⟨stands.next, stands⟩

theorem settle : Reports P settle fun _ => True := by
  refine step fun c => ?_
  split
  · exact (List.dropWhile_suffix _).subset
  · exact List.Subset.refl _

theorem peek : Reports P peek fun _ => True :=
  settle.andThen fun _ => here.andThen fun _ => pure trivial

theorem advance : Reports P advance fun t => P t.place := by
  intro c stands
  rw [advance_eq]
  exact ⟨stands.settled.next, stands.settled.behind⟩

theorem complain {complaint : Complaint} (noEscape : complaint.isEscape = false) :
    Reports P (complain complaint : Parser α) right :=
  settle.andThen fun _ => here.bind fun _ known => complainAt known noEscape

theorem check (mark : Symbol) : Reports P (check mark) fun _ => True := by
  refine peek.andThen fun t => ?_
  split <;> exact pure trivial

theorem expect (mark : Symbol) (what : String) : Reports P (expect mark what) fun _ => True := by
  refine (check mark).andThen fun found => ?_
  split
  · exact advance.andThen fun _ => pure trivial
  · exact peek.andThen fun _ => complain rfl

theorem remaining : Reports P remaining fun _ => True := get.andThen fun _ => pure trivial

theorem bracketed (h : Reports P p right) : Reports P (bracketed p) right := by
  refine andThen (aside fun _ => rfl) fun _ => h.bind fun _ isRight => ?_
  exact andThen (aside fun _ => rfl) fun _ => pure isRight

/-! ### Names and trees -/

theorem define (name : String) : Reports P (define name) fun _ => True := by
  refine aside fun c => ?_
  split <;> rfl

theorem body (h : Reports P p right) : Reports P (body p) right := by
  refine andThen (aside fun _ => rfl) fun _ => h.bind fun _ isRight => ?_
  exact andThen (aside fun _ => rfl) fun _ => pure isRight

theorem sees (ctx : Context) (name : String) : Reports P (sees ctx name) fun _ => True :=
  get.andThen fun _ => pure trivial

theorem requireRoot (ctx : Context) (path : Path) {place : Position} (known : P place) :
    Reports P (requireRoot ctx path place) fun _ => True := by
  refine (sees ctx path.root).andThen fun found => ?_
  split
  · exact pure trivial
  · exact throw (.unknownName known)

theorem reference (ctx : Context) (path : Path) {place : Position} (known : P place) :
    Reports P (reference ctx path place) fun _ => True :=
  (requireRoot ctx path known).andThen fun _ => pure trivial

/-- A name of a registered type makes an instance, or its type refuses the fields. -/
theorem undecodable_of_decode {r : Registry} {name : String} (registered : r.contains name = true)
    {fields : List Value} {serial : Nat} {fault : Fault}
    (failed : r.decode name fields serial = .error fault) :
    ∃ reason, fault = .undecodable name reason := by
  obtain ⟨type, named⟩ := Option.isSome_iff_exists.mp registered
  simp only [Registry.decode, named] at failed
  split at failed
  · exact nomatch failed
  · cases failed
    exact ⟨_, rfl⟩

theorem call (ctx : Context) (path : Path) (args : List Tree) {place : Position} (known : P place) :
    Reports P (call ctx path args place) fun _ => True := by
  rw [Parser.call]
  refine (sees ctx path.root).andThen fun found => ?_
  split
  · rename_i types
    have registered := (Bool.and_eq_true_iff.mp types).2
    split
    · refine get.bind fun c stands => ?_
      split
      · exact andThen (set ⟨stands.start, stands.rest⟩) fun _ => pure trivial
      · exact complainAt known rfl
      · rename_i refused failed
        obtain ⟨reason, same⟩ := undecodable_of_decode registered failed
        exact absurd same (refused _ _)
    · exact pure trivial
  · exact (requireRoot ctx path known).andThen fun _ => pure trivial

end Reports

variable {P : Position → Prop}

/-! ## The compact language -/

namespace Pi

open Script.Parser

theorem isEscape_of_operatorFor {mark : Symbol} {count : Nat} {complaint : Complaint}
    (failed : operatorFor mark count = .error complaint) : complaint.isEscape = false := by
  unfold operatorFor at failed
  repeat' split at failed
  all_goals cases failed <;> rfl

section Terms

variable {term : Parser Tree} (h : Reports P term fun _ => True)

include h

theorem termsUntil_reports (close : Symbol) {opening : Position} (known : P opening)
    (delimiter : String) :
    ∀ allowance, Reports P (termsUntil term close opening delimiter allowance) fun _ => True
  | 0 => .complainAt known rfl
  | allowance + 1 => by
      rw [termsUntil]
      refine (Reports.check close).andThen fun closed => ?_
      split
      · exact Reports.advance.andThen fun _ => .pure trivial
      refine Reports.peek.andThen fun t => ?_
      split
      · exact .complainAt known rfl
      · exact h.andThen fun _ =>
          (termsUntil_reports close known delimiter allowance).andThen fun _ => .pure trivial

theorem argsAfter_reports : ∀ allowance, Reports P (argsAfter term allowance) fun _ => True
  | 0 => Reports.peek.andThen fun _ => .complain rfl
  | allowance + 1 => by
      rw [argsAfter]
      refine h.andThen fun first => Reports.peek.andThen fun t => ?_
      split
      · exact Reports.advance.andThen fun _ => (argsAfter_reports allowance).andThen fun _ =>
          .pure trivial
      · exact Reports.advance.andThen fun _ => .pure trivial
      · exact .complain rfl

theorem args_reports : Reports P (args term) fun _ => True := by
  rw [args]
  refine (Reports.expect .lParen _).andThen fun _ => (Reports.check .rParen).andThen
    fun closed => ?_
  split
  · exact Reports.advance.andThen fun _ => .pure trivial
  · exact Reports.remaining.andThen fun room => argsAfter_reports h room

theorem application_reports (mark : Symbol) {place : Position} (known : P place) :
    Reports P (application term mark place) fun _ => True := by
  rw [application]
  refine (Reports.check .lParen).andThen fun applied => ?_
  split
  · refine (args_reports h).andThen fun operands => ?_
    split
    · exact .pure trivial
    · rename_i failed
      exact .complainAt known (isEscape_of_operatorFor failed)
  · exact .complainAt known rfl

omit h in
theorem members_reports {place : Position} (known : P place) :
    ∀ allowance, Reports P (members place allowance) fun _ => True
  | 0 => .pure trivial
  | allowance + 1 => by
      rw [members]
      refine (Reports.check .dot).andThen fun dotted => ?_
      split
      · refine Reports.advance.andThen fun _ => Reports.advance.andThen fun t => ?_
        split
        · exact (members_reports known allowance).andThen fun _ => .pure trivial
        · exact .complainAt known rfl
      · exact .pure trivial

theorem named_reports (ctx : Context) (first : String) {place : Position} (known : P place) :
    Reports P (named ctx term first place) fun _ => True := by
  rw [named]
  refine Reports.remaining.andThen fun room => (members_reports known room).andThen fun others =>
    Reports.peek.andThen fun t => ?_
  split
  · exact Reports.advance.andThen fun _ => (Reports.define _).andThen fun _ =>
      h.andThen fun _ => .pure trivial
  · exact (args_reports h).andThen fun operands => .call ctx _ operands known
  · exact .reference ctx _ known

omit h in
theorem parameters_reports {opening : Position} (known : P opening) :
    ∀ allowance, Reports P (parameters opening allowance) fun _ => True
  | 0 => Reports.peek.andThen fun _ => .complainAt known rfl
  | allowance + 1 => by
      rw [parameters]
      refine Reports.advance.andThen fun t => ?_
      split
      · exact .pure trivial
      · exact (Reports.define _).andThen fun _ => (parameters_reports known allowance).andThen
          fun _ => .pure trivial
      · exact .complainAt known rfl

theorem function_reports {opening : Position} (known : P opening) :
    Reports P (function term opening) fun _ => True := by
  rw [function]
  have goesOn : ∀ params : List String, Reports P (do
      let statements ← termsUntil term .rBrace opening "\x7b" (← remaining)
      return Tree.literal (.closure params (.sequence statements) none)) fun _ => True :=
    fun params => Reports.remaining.andThen fun room =>
      (termsUntil_reports h .rBrace known _ room).andThen fun _ => .pure trivial
  refine Reports.body ((Reports.check .pipe).andThen fun bar => ?_)
  split
  · exact Reports.advance.andThen fun _ => Reports.remaining.andThen fun room =>
      (parameters_reports known room).andThen fun params => goesOn params
  · exact goesOn []

theorem termWith_reports (ctx : Context) : Reports P (termWith ctx term) fun _ => True := by
  rw [termWith]
  refine Reports.advance.bind fun first known => ?_
  split
  · exact .pure trivial
  · exact .pure trivial
  · exact .pure trivial
  · exact .pure trivial
  · exact .pure trivial
  · exact named_reports h ctx _ known
  · refine Reports.peek.andThen fun t => ?_
    split
    · exact Reports.advance.andThen fun _ => .pure trivial
    · exact Reports.advance.andThen fun _ => .pure trivial
    · exact application_reports h .minus known
  · exact Reports.remaining.andThen fun room =>
      (termsUntil_reports h .rBracket known _ room).andThen fun _ => .pure trivial
  · exact function_reports h known
  · split
    · exact application_reports h _ known
    · exact .complainAt known rfl
  · exact .complainAt known rfl

theorem script_reports : ∀ allowance, Reports P (script term allowance) fun _ => True
  | 0 => .pure trivial
  | allowance + 1 => by
      rw [script]
      refine Reports.peek.andThen fun t => ?_
      split
      · exact .pure trivial
      · exact h.andThen fun _ => (script_reports allowance).andThen fun _ => .pure trivial

end Terms

theorem term_reports (ctx : Context) : ∀ levels, Reports P (term ctx levels) fun _ => True
  | 0 => Reports.here.bind fun _ known => .complainAt known rfl
  | levels + 1 => termWith_reports (term_reports ctx levels) ctx

theorem parse_reports {ctx : Context} {placed : List Placed} {serial : Nat} {fault : Fault}
    (start : P .start) (known : ∀ t ∈ placed, P t.place)
    (failed : parse ctx placed serial = .error fault) : fault.Points P := by
  have stands : Cursor.Stands P ⟨placed.filter counts, 0, [[]], serial⟩ :=
    ⟨start, fun t mem => known t (List.mem_of_mem_filter mem)⟩
  have read := script_reports (term_reports ctx nestingLimit) (placed.filter counts).length stands
  rw [parse] at failed
  dsimp only at failed
  split at read <;> rename_i ran <;> rw [ran] at failed
  · exact nomatch failed
  · cases failed
    exact read

end Pi

/-! ## The language of statements -/

namespace Rho

open Script.Parser

/-- What is known of the readers that a reader of terms uses. -/
structure Inner.Report (P : Position → Prop) (inner : Inner) : Prop where
  expression : ∀ levels, Reports P (inner.expression levels) fun _ => True
  unary : ∀ levels, Reports P (inner.unary levels) fun _ => True
  statements : ∀ levels closing, Reports P (inner.statements levels closing) fun _ => True

theorem nested_reports {p : Nat → Parser Tree} (h : ∀ levels, Reports P (p levels) fun _ => True) :
    ∀ levels, Reports P (nested p levels) fun _ => True
  | 0 => Reports.here.bind fun _ known => .complainAt known rfl
  | levels + 1 => h levels

section Parts

variable {expression : Parser Tree} (h : Reports P expression fun _ => True)

include h

theorem expressionList_reports (close : Symbol) :
    ∀ allowance, Reports P (expressionList expression close allowance) fun _ => True
  | 0 => .complain rfl
  | allowance + 1 => by
      rw [expressionList]
      refine (Reports.check close).andThen fun closed => ?_
      split
      · exact Reports.advance.andThen fun _ => .pure trivial
      refine Reports.peek.andThen fun t => ?_
      split
      · exact .complain rfl
      refine h.andThen fun first => (Reports.check .comma).andThen fun comma => ?_
      have goesOn : Reports P (do
          let rest ← expressionList expression close allowance
          return first :: rest) fun _ => True :=
        (expressionList_reports close allowance).andThen fun _ => .pure trivial
      split
      · exact Reports.advance.andThen fun _ => goesOn
      · refine (Reports.check close).andThen fun closes => ?_
        split
        · exact goesOn
        · refine Reports.peek.andThen fun t => ?_
          exact (Reports.complain rfl : Reports P _ fun _ => True).andThen fun _ => goesOn

theorem bracketedList_reports (close : Symbol) :
    Reports P (bracketed (do expressionList expression close (← remaining))) fun _ => True :=
  Reports.bracketed (Reports.remaining.andThen fun room => expressionList_reports h close room)

end Parts

theorem members_reports {place : Position} (known : P place) :
    ∀ allowance, Reports P (members place allowance) fun _ => True
  | 0 => .pure trivial
  | allowance + 1 => by
      rw [members]
      refine (Reports.check .dot).andThen fun dotted => ?_
      split
      · refine Reports.advance.andThen fun _ => Reports.advance.andThen fun t => ?_
        split
        · exact (members_reports known allowance).andThen fun _ => .pure trivial
        · exact .complainAt known rfl
      · exact .pure trivial

theorem parameters_reports : ∀ allowance, Reports P (parameters allowance) fun _ => True
  | 0 => Reports.peek.andThen fun _ => .complain rfl
  | allowance + 1 => by
      rw [parameters]
      refine Reports.advance.andThen fun t => ?_
      split
      · exact .pure trivial
      · have goesOn : ∀ name : String, Reports P (do
            let rest ← parameters allowance
            return name :: rest) fun _ => True :=
          fun _ => (parameters_reports allowance).andThen fun _ => .pure trivial
        refine (Reports.define _).andThen fun _ => (Reports.check .comma).andThen fun comma => ?_
        split
        · exact Reports.advance.andThen fun _ => goesOn _
        · exact goesOn _
      · exact .complain rfl

section Functions

variable {statements : Closing → Parser (List Tree)}
  (h : Reports P (statements .brace) fun _ => True)

include h

theorem block_reports : Reports P (block statements) fun _ => True := by
  rw [block]
  refine Reports.get.andThen fun c => Reports.andThen (.aside fun _ => rfl) fun _ => ?_
  refine h.andThen fun body => (Reports.check .rBrace).andThen fun closed => ?_
  split
  · exact Reports.advance.andThen fun _ => Reports.andThen (.aside fun _ => rfl) fun _ =>
      .pure trivial
  · exact .complain rfl

theorem function_reports : Reports P (function statements) fun _ => True := by
  rw [function]
  have params : Reports P (bracketed (do parameters (← remaining))) fun _ => True :=
    Reports.bracketed (Reports.remaining.andThen fun room => parameters_reports room)
  refine (Reports.expect .lParen _).andThen fun _ => Reports.body ?_
  refine params.andThen fun params => (Reports.expect .lBrace _).andThen fun _ => ?_
  exact (block_reports h).andThen fun _ => .pure trivial

end Functions

section Operators

variable {operand : Parser Tree} (h : Reports P operand fun _ => True)

include h

theorem chain_reports (operators : List (Symbol × Operator)) :
    ∀ (allowance : Nat) (left : Tree),
      Reports P (chain operators operand allowance left) fun _ => True
  | 0, _ => .pure trivial
  | allowance + 1, left => by
      rw [chain]
      refine Reports.peek.andThen fun t => ?_
      split
      · exact .pure trivial
      · exact Reports.advance.andThen fun _ => h.andThen fun right =>
          chain_reports operators allowance _

theorem binary_reports :
    ∀ tables : List (List (Symbol × Operator)), Reports P (binary operand tables) fun _ => True
  | [] => h
  | operators :: tighter => by
      have operands := binary_reports tighter
      rw [binary]
      exact operands.andThen fun first => Reports.remaining.andThen fun room =>
        chain_reports operands operators room first

end Operators

theorem statementsWith_reports {statement : Parser Tree} (h : Reports P statement fun _ => True)
    (closing : Closing) :
    ∀ allowance, Reports P (statementsWith statement closing allowance) fun _ => True
  | 0 => .pure trivial
  | allowance + 1 => by
      rw [statementsWith]
      refine Reports.andThen (.step fun c => (List.dropWhile_suffix _).subset) fun _ =>
        Reports.here.andThen fun next => ?_
      split
      · exact .pure trivial
      refine h.andThen fun first => Reports.here.andThen fun behind => ?_
      split
      · exact (statementsWith_reports h closing allowance).andThen fun _ => .pure trivial
      · exact .complain rfl

section Storey

variable (ctx : Context) {inner : Inner} (inside : inner.Report P)

include inside

theorem path_reports (levels : Nat) (first : String) {place : Position} (known : P place) :
    Reports P (path ctx (inner.expression levels) first place) fun _ => True := by
  rw [path]
  refine Reports.remaining.andThen fun room => (members_reports known room).andThen fun others =>
    (Reports.check .lParen).andThen fun applied => ?_
  split
  · exact Reports.advance.andThen fun _ =>
      (bracketedList_reports (inside.expression levels) .rParen).andThen fun args =>
        .call ctx _ args known
  · exact .reference ctx _ known

theorem primary_reports (levels : Nat) : Reports P (primary ctx inner levels) fun _ => True := by
  rw [primary]
  refine Reports.advance.bind fun first known => ?_
  split
  · exact .pure trivial
  · exact .pure trivial
  · exact .pure trivial
  · exact .pure trivial
  · exact .pure trivial
  · split
    · exact function_reports (inside.statements levels .brace)
    · exact path_reports ctx inside levels _ known
  · exact Reports.bracketed ((inside.expression levels).andThen fun _ =>
      (Reports.expect .rParen _).andThen fun _ => .pure trivial)
  · exact (bracketedList_reports (inside.expression levels) .rBracket).andThen fun _ =>
      .pure trivial
  · exact Reports.body
      ((block_reports (inside.statements levels .brace)).andThen fun _ => .pure trivial)
  · exact .complainAt known rfl

theorem unary_reports (levels : Nat) : Reports P (unary ctx inner levels) fun _ => True := by
  have operand := nested_reports inside.unary levels
  rw [unary]
  refine Reports.peek.andThen fun t => ?_
  split
  · exact Reports.advance.andThen fun _ => operand.andThen fun _ => .pure trivial
  · exact Reports.advance.andThen fun _ => operand.andThen fun _ => .pure trivial
  · exact primary_reports ctx inside levels

theorem expression_reports (levels : Nat) : Reports P (expression ctx inner levels) fun _ => True :=
  nested_reports (fun levels => binary_reports (unary_reports ctx inside levels) precedence) levels

theorem statement_reports (levels : Nat) :
    Reports P (statement ctx inner levels) fun _ => True := by
  have plain : Reports P (expression ctx inner levels) fun _ => True :=
    expression_reports ctx inside levels
  rw [statement]
  refine Reports.get.andThen fun c => Reports.peek.andThen fun t => ?_
  split
  · split
    · refine Reports.advance.andThen fun _ => Reports.advance.andThen fun _ =>
        (Reports.define _).andThen fun _ => ?_
      exact (function_reports (inside.statements levels .brace)).andThen fun _ => .pure trivial
    · exact plain
  · exact Reports.advance.andThen fun _ => Reports.advance.andThen fun _ =>
      (Reports.define _).andThen fun _ =>
      plain.andThen fun _ => .pure trivial
  · exact plain

theorem storey_reports : (storey ctx inner).Report P where
  expression := expression_reports ctx inside
  unary := unary_reports ctx inside
  statements levels closing := Reports.remaining.andThen fun room =>
    statementsWith_reports (statement_reports ctx inside levels) closing room

end Storey

theorem tower_reports (ctx : Context) : ∀ height, (tower ctx height).Report P
  | 0 => ⟨fun _ => .complain rfl, fun _ => .complain rfl, fun _ _ => .complain rfl⟩
  | height + 1 =>
      have inside := storey_reports ctx (tower_reports ctx height)
      ⟨inside.expression, inside.unary, inside.statements⟩

theorem parse_reports {ctx : Context} {placed : List Placed} {serial : Nat} {fault : Fault}
    (start : P .start) (known : ∀ t ∈ placed, P t.place)
    (failed : parse ctx placed serial = .error fault) : fault.Points P := by
  have stands : Cursor.Stands P ⟨placed, 0, [[]], serial⟩ := ⟨start, known⟩
  have read := (tower_reports ctx (placed.length + 1)).statements nestingLimit .finish stands
  rw [parse] at failed
  dsimp only at failed
  split at read <;> rename_i ran <;> rw [ran] at failed
  · exact nomatch failed
  · cases failed
    exact read

end Rho

end Script

end PeerScript
