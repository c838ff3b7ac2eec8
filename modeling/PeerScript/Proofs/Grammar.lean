import Mathlib
import PeerScript.Proofs.Messages.Parsing
import PeerScript.Proofs.Translation.Terms

/-!
# The grammar of the compact language

`IsTerm levels ts t` is the grammar: the tokens `ts` are a term in which terms nest on at most
`levels` levels, and the term stands for the tree `t`.

    term  ::=  INT | FLOAT | STR | true | false | - INT | - FLOAT | path | ident = term
            |  path ( [term {, term}] ) | op2 ( term , term ) | - ( term ) | ! ( term )
            |  [ term* ] | { [ | IDENT* | ] term* }
    path  ::=  ident {. IDENT}

Where all names of a text are bound, the readers accept what the grammar derives (`IsTerm.reads`)
and nothing else (`term_derives`), so a text is a script exactly when its tokens are a sequence of
terms: `parse_pi_iff`.  The readers return one tree, so the grammar is unambiguous.
-/

set_option autoImplicit false

namespace PeerScript.Script.Pi

open Text (Position)
open PeerScript.Script.Parser
open Encoder (pathTokens appliedTokens bracketedTokens)

/-- Tokens and the tree that they stand for. -/
abbrev Phrase : Type := List Token × Tree

/-- A path whose first name is no literal. -/
def IsRooted (path : Path) : Prop := ∃ first, path.segments.head? = some first ∧ IsPlain first

/-- The tokens are a term that stands for the tree, and in which terms nest on no more levels than
given. -/
inductive IsTerm : Nat → List Token → Tree → Prop
  /-- numbers, strings and truth values -/
  | constant {levels : Nat} {t : Token} {v : Value} (stands : constant? t = some v) :
      IsTerm (levels + 1) [t] (.literal v)
  /-- a negative number is a literal as well -/
  | negative {levels : Nat} {t : Token} {v : Value} (stands : negated? t = some v) :
      IsTerm (levels + 1) [.symbol .minus, t] (.literal v)
  | reference {levels : Nat} {path : Path} (rooted : IsRooted path) :
      IsTerm (levels + 1) (pathTokens path) (.reference path)
  | bind {levels : Nat} {name : String} {ts : List Token} {t : Tree} (plain : IsPlain name)
      (value : IsTerm levels ts t) :
      IsTerm (levels + 1) (.name name :: .symbol .assign :: ts) (.bind name t)
  | invoke {levels : Nat} {path : Path} {args : List Phrase} (rooted : IsRooted path)
      (each : ∀ x ∈ args, IsTerm levels x.1 x.2) :
      IsTerm (levels + 1) (appliedTokens (pathTokens path) (args.map Prod.fst))
        (.invoke path (args.map Prod.snd))
  /-- operators stand in front of as many operands as they take, which is one for `-` or `!` -/
  | op {levels : Nat} {operator : Operator} {operands : List Phrase}
      (arity : operands.length = operator.arity) (each : ∀ x ∈ operands, IsTerm levels x.1 x.2) :
      IsTerm (levels + 1) (appliedTokens [.symbol operator.mark] (operands.map Prod.fst))
        (.op operator (operands.map Prod.snd))
  /-- a list of literals is a literal itself -/
  | literals {levels : Nat} {items : List Phrase} {values : List Value}
      (each : ∀ x ∈ items, IsTerm levels x.1 x.2) (all : items.map Prod.snd = values.map .literal) :
      IsTerm (levels + 1) (bracketedTokens (items.map Prod.fst)) (.literal (.list values))
  | list {levels : Nat} {items : List Phrase} (each : ∀ x ∈ items, IsTerm levels x.1 x.2)
      (some : ∃ x ∈ items, x.2.isLiteral = false) :
      IsTerm (levels + 1) (bracketedTokens (items.map Prod.fst)) (.call .list (items.map Prod.snd))
  | function {levels : Nat} (header : Option (List String)) {statements : List Phrase}
      (each : ∀ x ∈ statements, IsTerm levels x.1 x.2) :
      IsTerm (levels + 1) (.symbol .lBrace :: (headerTokens header ++
          ((statements.map Prod.fst).flatten ++ [.symbol .rBrace])))
        (.literal (.closure (header.getD []) (.sequence (statements.map Prod.snd)) none))

/-- The tokens are terms one after another. -/
def AreTerms (levels : Nat) (ts : List Token) (trees : List Tree) : Prop :=
  ∃ phrases : List Phrase, (∀ x ∈ phrases, IsTerm levels x.1 x.2) ∧
    ts = (phrases.map Prod.fst).flatten ∧ trees = phrases.map Prod.snd

/-! ## What the grammar derives is read -/

theorem IsRooted.begins {path : Path} (rooted : IsRooted path) (more : List Token) :
    Begins (pathTokens path ++ more) := by
  obtain ⟨first, shape, -⟩ := rooted
  obtain ⟨_ | ⟨root, others⟩⟩ := path
  · exact nomatch shape
  · rw [pathTokens_cons]
    exact begins_name root _

theorem IsTerm.begins {levels : Nat} {ts : List Token} {t : Tree} (h : IsTerm levels ts t) :
    Begins ts := by
  cases h with
  | @constant _ t v stands =>
      refine ⟨t, [], rfl, ?_⟩
      unfold constant? at stands
      split at stands <;> first | rfl | exact nomatch stands
  | negative => exact ⟨_, _, rfl, rfl⟩
  | reference rooted => exact List.append_nil (pathTokens _) ▸ rooted.begins []
  | bind => exact begins_name _ _
  | invoke rooted => exact rooted.begins _
  | @op _ operator =>
      refine ⟨.symbol operator.mark, _, rfl, ?_⟩
      rw [beginsTerm, isOperator_mark, Bool.or_true]
  | literals => exact ⟨_, _, rfl, rfl⟩
  | list => exact ⟨_, _, rfl, rfl⟩
  | function => exact ⟨_, _, rfl, rfl⟩

/-- A token other than the end of a script, and bound if it is a name. -/
def Known (ctx : Context) (t : Token) : Prop :=
  t ≠ .finish ∧ ∀ name, t = .name name → IsPlain name → ctx.isBound name = true

section Complete

variable {ctx : Context} {serial : Nat}

theorem sees_of_known {ts : List Token} (known : ∀ t ∈ ts, Known ctx t) {name : String}
    (mem : .name name ∈ ts) (plain : IsPlain name) (names : List (List String)) :
    ctx.Sees names name :=
  .of_bound ((known _ mem).2 name rfl plain) names

theorem root_mem {path : Path} {first : String} (shape : path.segments.head? = some first) :
    Token.name first ∈ pathTokens path := by
  obtain ⟨_ | ⟨root, others⟩⟩ := path
  · exact nomatch shape
  · cases shape
    rw [pathTokens_cons]
    exact List.mem_cons_self

theorem numbered_behind (change : List (List String) → List (List String))
    (names : List (List String)) (next : Nat) (h : (Numbered serial).behind change names next) :
    Numbered serial names next := by
  obtain ⟨_, numbered, _⟩ := h
  exact numbered

theorem mem_flatten {xs : List Phrase} {x : Phrase} (mem : x ∈ xs) {t : Token} (inside : t ∈ x.1) :
    t ∈ (xs.map Prod.fst).flatten :=
  List.mem_flatten_of_mem (List.mem_map_of_mem mem) inside

theorem mem_intercalate {mark t : Token} {parts : List (List Token)} (mem : t ∈ parts.flatten) :
    t ∈ [mark].intercalate parts := by
  induction parts with
  | nil => exact nomatch mem
  | cons part parts ih =>
      cases parts with
      | nil => simpa using mem
      | cons other parts =>
          rw [List.intercalate_cons_cons, List.mem_append, List.mem_append]
          rw [List.flatten_cons, List.mem_append] at mem
          exact mem.imp_left .inl |>.imp_right ih

theorem mem_applied {head : List Token} {args : List Phrase} {x : Phrase}
    (mem : x ∈ args) {t : Token} (inside : t ∈ x.1) :
    t ∈ appliedTokens head (args.map Prod.fst) := by
  have found : t ∈ [Token.symbol .comma].intercalate (args.map Prod.fst) :=
    mem_intercalate (mem_flatten mem inside)
  rw [appliedTokens, List.mem_append, List.mem_cons, List.mem_append]
  exact .inr (.inr (.inl found))

theorem mem_bracketed {items : List Phrase} {x : Phrase} (mem : x ∈ items) {t : Token}
    (inside : t ∈ x.1) : t ∈ bracketedTokens (items.map Prod.fst) := by
  rw [bracketedTokens, List.mem_cons, List.mem_append]
  exact .inr (.inl (mem_flatten mem inside))

/-- Terms that are read alone are read one after another. -/
theorem reads_all {levels : Nat} {xs : List Phrase} {ts : List Token}
    (known : ∀ t ∈ ts, Known ctx t) (inside : ∀ x ∈ xs, ∀ t ∈ x.1, t ∈ ts)
    (reads : ∀ x ∈ xs, (∀ t ∈ x.1, Known ctx t) →
      Reads (Numbered serial) (term ctx levels) x.1 (· = x.2)) :
    ReadsAll (term ctx levels) Prod.fst (fun x t => t = x.2) (Numbered serial) xs
      (Numbered serial) :=
  .of_forall fun x mem => reads x mem fun t memT => known t (inside x mem t memT)

/-- More may be known in front of terms. -/
theorem ReadsAll.change {α : Type} {p : Parser Tree} {tokens : α → List Token}
    {result : α → Tree → Prop} {I I' J : Invariant} {xs : List α}
    (h : ReadsAll p tokens result I xs J) (front : ∀ names next, I' names next → I names next) :
    ∃ J', ReadsAll p tokens result I' xs J' ∧ ∀ names next, J' names next → J names next := by
  cases h with
  | nil => exact ⟨I', .nil, front⟩
  | cons first rest => exact ⟨J, .cons (first.change front fun _ _ h => h) rest, fun _ _ h => h⟩

end Complete

/-- A term is read, whatever follows it, as the tree that it stands for. -/
theorem IsTerm.reads {ctx : Context} {serial levels : Nat} {ts : List Token} {t : Tree}
    (h : IsTerm levels ts t) (known : ∀ t ∈ ts, Known ctx t) :
    Reads (Numbered serial) (term ctx levels) ts (· = t) := by
  induction h with
  | constant stands => exact literal_reads ctx stands
  | negative stands => exact negative_reads ctx stands
  | reference rooted =>
      obtain ⟨first, shape, plain⟩ := rooted
      exact reference_reads shape plain fun names _ _ => sees_of_known known
        (root_mem shape) plain names
  | @bind _ _ ts _ plain value ih =>
      have known' : ∀ t ∈ ts, Known ctx t := fun t mem =>
        known t (List.mem_cons_of_mem _ (List.mem_cons_of_mem _ mem))
      have reads := bind_reads ctx plain ((ih known').change (numbered_behind _) fun _ _ h => h)
        value.begins
      exact reads.mono fun tree ⟨_, same, isBind⟩ => by rw [isBind, same]
  | @invoke _ path args rooted each ih =>
      obtain ⟨first, shape, plain⟩ := rooted
      have all := reads_all known (fun x mem t inside => mem_applied mem inside) ih
      have sees : ∀ names serial', Numbered serial names serial' → ctx.Sees names first :=
        fun names _ _ => sees_of_known known (List.mem_append_left _ (root_mem shape)) plain names
      have reads := invoke_reads shape plain sees all fun x mem => (each x mem).begins
      refine reads.mono fun tree ⟨operands, rights, isInvoke⟩ => ?_
      rw [isInvoke, eq_map_of_forall₂ rights]
  | @op _ operator operands arity each ih =>
      have all := reads_all known (fun x mem t inside => mem_applied mem inside) ih
      have fits : operatorFor operator.mark operands.length = .ok operator := by
        rw [arity, operatorFor_mark]
      have reads :=
        op_reads ctx all (fun x mem => (each x mem).begins) (isOperator_mark operator) fits
      refine reads.mono fun tree ⟨trees, rights, isOp⟩ => ?_
      rw [isOp, eq_map_of_forall₂ rights]
  | literals each areLiterals ih =>
      have all := reads_all known (fun x mem t inside => mem_bracketed mem inside) ih
      have reads := list_reads ctx all fun x mem => (each x mem).begins
      refine reads.mono fun tree ⟨trees, rights, isList⟩ => ?_
      rw [isList, eq_map_of_forall₂ rights, areLiterals, Parser.list, literals_mapM]
  | @list _ items each some ih =>
      have all := reads_all known (fun x mem t inside => mem_bracketed mem inside) ih
      have reads := list_reads ctx all fun x mem => (each x mem).begins
      obtain ⟨x, mem, isCall⟩ := some
      have call : ∃ t ∈ items.map Prod.snd, t.isLiteral = false :=
        ⟨x.2, List.mem_map_of_mem mem, isCall⟩
      refine reads.mono fun tree ⟨trees, rights, isList⟩ => ?_
      rw [isList, eq_map_of_forall₂ rights, Parser.list, mapM_eq_none_of_call call]
  | @function _ header statements each ih =>
      have inside : ∀ x ∈ statements, ∀ t ∈ x.1, t ∈ Token.symbol .lBrace :: (headerTokens header ++
          ((statements.map Prod.fst).flatten ++ [.symbol .rBrace])) := by
        intro x mem t inside
        rw [List.mem_cons, List.mem_append, List.mem_append]
        exact .inr (.inr (.inl (mem_flatten mem inside)))
      obtain ⟨J, all, back⟩ := (reads_all known inside ih).change
        (numbered_behind ((header.getD []).reverse :: ·))
      have reads := function_reads ctx header all fun x mem => (each x mem).begins
      have last : ∀ names next, J.behind leave names next → Numbered serial names next :=
        fun names next ⟨before, numbered, _⟩ => back before next numbered
      refine (reads.change (fun _ _ h => h) last).mono fun tree ⟨trees, rights, isFunction⟩ => ?_
      rw [isFunction, eq_map_of_forall₂ rights]

/-! ## What is read is derived by the grammar -/

/-- In front of the given token, a parser that succeeds has taken tokens that are right for what it
returns. -/
def DerivesAt (ctx : Context) (ahead : Token) {α : Type} (p : Parser α)
    (right : List Token → α → Prop) : Prop :=
  ∀ ⦃serial c ts a c'⦄, (∀ t ∈ ts, Known ctx t) → Stands (Numbered serial) c (ts ++ [.finish]) →
    (ts ++ [.finish]).head? = some ahead → p c = .ok (a, c') →
    ∃ used rest, ts = used ++ rest ∧ Stands (Numbered serial) c' (rest ++ [.finish]) ∧ right used a

/-- A parser that succeeds has taken tokens that are right for what it returns. -/
def Derives (ctx : Context) {α : Type} (p : Parser α) (right : List Token → α → Prop) : Prop :=
  ∀ ahead, DerivesAt ctx ahead p right

theorem eq_of_isSymbol {t : Token} {mark : Symbol} (is : t.isSymbol mark = true) :
    t = .symbol mark := by
  cases t with
  | symbol other => rw [of_decide_eq_true is]
  | _ => exact nomatch is

/-- A parser that moves no token. -/
def Still {α : Type} (p : Parser α) : Prop :=
  ∀ ⦃c a c'⦄, p c = .ok (a, c') → ∃ names, c' = { c with names := names }

namespace DerivesAt

variable {ctx : Context} {ahead : Token} {α β : Type} {p : Parser α} {f : α → Parser β}
  {right right' : List Token → α → Prop} {right₂ : List Token → β → Prop}

theorem mono (h : DerivesAt ctx ahead p right) (le : ∀ used a, right used a → right' used a) :
    DerivesAt ctx ahead p right' := by
  intro serial c ts a c' known stands shown ran
  obtain ⟨used, rest, same, stands', gives⟩ := h known stands shown ran
  exact ⟨used, rest, same, stands', le used a gives⟩

theorem pure {a : α} (gives : right [] a) : DerivesAt ctx ahead (Pure.pure a) right := by
  intro serial c ts b c' known stands shown ran
  cases ran
  exact ⟨[], ts, rfl, stands, gives⟩

theorem of_fails (fails : p.Fails) : DerivesAt ctx ahead p right :=
  fun _ _ _ _ _ _ _ _ ran => absurd ran (fails _ _)

theorem bind (first : DerivesAt ctx ahead p right)
    (next : ∀ used a, right used a → Derives ctx (f a) fun more b => right₂ (used ++ more) b) :
    DerivesAt ctx ahead (p >>= f) right₂ := by
  intro serial c ts b c' known stands shown ran
  obtain ⟨a, c₁, ran₁, ran₂⟩ := ok_of_bind ran
  obtain ⟨used, rest, rfl, stands₁, gives⟩ := first known stands shown ran₁
  obtain ⟨t, there⟩ : ∃ t, (rest ++ [Token.finish]).head? = some t := by
    cases rest <;> exact ⟨_, rfl⟩
  have known₁ : ∀ t ∈ rest, Known ctx t := fun t mem => known t (List.mem_append_right used mem)
  obtain ⟨more, rest', rfl, stands', gives'⟩ := next used a gives t known₁ stands₁ there ran₂
  exact ⟨used ++ more, rest', (List.append_assoc _ _ _).symm, stands', gives'⟩

/-- Behind a parser that moves no token. -/
theorem still (h : Still p) (next : ∀ a, DerivesAt ctx ahead (f a) right₂) :
    DerivesAt ctx ahead (p >>= f) right₂ := by
  intro serial c ts b c' known stands shown ran
  obtain ⟨a, c₁, ran₁, ran₂⟩ := ok_of_bind ran
  obtain ⟨names, rfl⟩ := h ran₁
  have stands₁ : Stands (Numbered serial) { c with names := names } (ts ++ [.finish]) :=
    ⟨stands.flat, stands.shows, stands.keeps⟩
  exact next a known stands₁ shown ran₂

theorem peek {f : Token → Parser β} (next : DerivesAt ctx ahead (f ahead) right₂) :
    DerivesAt ctx ahead (Parser.peek >>= f) right₂ := by
  intro serial c ts b c' known stands shown ran
  obtain ⟨more, shape⟩ := List.head?_eq_some_iff.mp shown
  have looked : Parser.peek c = .ok (ahead, c) := (shape ▸ stands).peek
  rw [bind_of_ok looked] at ran
  exact next known stands shown ran

theorem check (mark : Symbol) {f : Bool → Parser β}
    (next : DerivesAt ctx ahead (f (ahead.isSymbol mark)) right₂) :
    DerivesAt ctx ahead (Parser.check mark >>= f) right₂ := by
  rw [check_bind]
  exact peek next

/-- The token in front is taken, unless it is the end of the script. -/
theorem advance (noEnd : ahead ≠ .finish) {f : Placed → Parser β}
    (next : ∀ place, Known ctx ahead →
      Derives ctx (f ⟨ahead, place⟩) fun used b => right₂ (ahead :: used) b) :
    DerivesAt ctx ahead (Parser.advance >>= f) right₂ := by
  intro serial c ts b c' known stands shown ran
  cases ts with
  | nil => exact absurd (Option.some.inj shown).symm noEnd
  | cons t ts =>
      cases Option.some.inj shown
      obtain ⟨u, more, shape⟩ := List.exists_cons_of_ne_nil (show ts ++ [Token.finish] ≠ [] by simp)
      rw [List.cons_append, shape] at stands
      obtain ⟨⟨_, place⟩, c₁, taken, rfl, stands₁⟩ := stands.advance
      rw [bind_of_ok taken] at ran
      rw [← shape] at stands₁
      have there : (ts ++ [Token.finish]).head? = some u := by rw [shape]; rfl
      have known₁ : ∀ t ∈ ts, Known ctx t := fun t mem => known t (List.mem_cons_of_mem _ mem)
      obtain ⟨used, rest, rfl, stands', gives⟩ :=
        next place (known _ List.mem_cons_self) u known₁ stands₁ there ran
      exact ⟨_ :: used, rest, rfl, stands', gives⟩

/-- Where the end of the script is taken, nothing must succeed. -/
theorem advance_end {f : Placed → Parser β} (fails : ∀ place, (f ⟨.finish, place⟩).Fails) :
    DerivesAt ctx .finish (Parser.advance >>= f) right₂ := by
  intro serial c ts b c' known stands shown ran
  obtain ⟨more, shape⟩ := List.head?_eq_some_iff.mp shown
  obtain ⟨first, found, isEnd⟩ := (shape ▸ stands).here
  rw [here_eq] at found
  have next : c.next = first := congrArg Prod.fst (Except.ok.inj found)
  have settled : c.settled = c := by rw [Cursor.settled, stands.flat, if_neg (Nat.lt_irrefl 0)]
  obtain ⟨token, place⟩ := first
  cases isEnd
  rw [bind_of_ok (advance_eq c), settled, next] at ran
  exact absurd ran (fails place _ _)

theorem expect (mark : Symbol) (what : String) :
    DerivesAt ctx ahead (Parser.expect mark what) fun used _ => used = [.symbol mark] := by
  rw [Parser.expect]
  refine check mark ?_
  split
  · rename_i found
    cases eq_of_isSymbol found
    exact advance Token.noConfusion fun place _ ahead => pure rfl
  · exact of_fails (.after (fun _ => fails_complain _) _)

end DerivesAt

section Still

variable {ctx : Context}

theorem still_remaining : Still remaining := by
  intro c n c' ran
  cases ran
  exact ⟨c.names, rfl⟩

theorem still_define (name : String) : Still (define name) := by
  intro c a c' ran
  rw [define] at ran
  cases ran
  dsimp only
  split
  · exact ⟨c.names, rfl⟩
  · exact ⟨_, rfl⟩

theorem still_renamed (change : List (List String) → List (List String)) :
    Still (modify fun c => { c with names := change c.names } : Parser PUnit) := by
  intro c a c' ran
  cases ran
  exact ⟨_, rfl⟩

theorem still_requireRoot (path : Path) (place : Position) :
    Still (requireRoot ctx path place) := by
  intro c a c' ran
  obtain ⟨found, c₁, looked, ran₁⟩ := ok_of_bind ran
  cases looked
  split at ran₁
  · cases ran₁
    exact ⟨c.names, rfl⟩
  · exact nomatch ran₁

end Still

section Readers

variable {ctx : Context} {right : List Token → Tree → Prop} {term : Parser Tree}
  (gives : Derives ctx term right)

/-- Phrases of which each is right. -/
def AllRight (right : List Token → Tree → Prop) (phrases : List Phrase) : Prop :=
  ∀ x ∈ phrases, right x.1 x.2

include gives

theorem termsUntil_derives (close : Symbol) (opening : Position) (delimiter : String) :
    ∀ allowance, Derives ctx (termsUntil term close opening delimiter allowance) fun used trees =>
      ∃ phrases, AllRight right phrases ∧
        used = (phrases.map Prod.fst).flatten ++ [.symbol close] ∧ trees = phrases.map Prod.snd
  | 0, _ => .of_fails (fails_complainAt _ _)
  | allowance + 1, ahead => by
      rw [termsUntil]
      refine .check close ?_
      split
      · rename_i closes
        cases eq_of_isSymbol closes
        exact .advance Token.noConfusion fun place _ ahead =>
          .pure ⟨[], List.forall_mem_nil _, rfl, rfl⟩
      refine .peek ?_
      split
      · exact .of_fails (fails_complainAt _ _)
      · refine (gives ahead).bind fun ts t isRight ahead => ?_
        refine (termsUntil_derives close opening delimiter allowance ahead).bind ?_
        rintro _ _ ⟨phrases, areRight, rfl, rfl⟩ _
        refine .pure ⟨(ts, t) :: phrases, List.forall_mem_cons.mpr ⟨isRight, areRight⟩, ?_, rfl⟩
        simp

theorem argsAfter_derives :
    ∀ allowance, Derives ctx (argsAfter term allowance) fun used trees =>
      ∃ phrases, AllRight right phrases ∧ phrases ≠ [] ∧
        used = [.symbol .comma].intercalate (phrases.map Prod.fst) ++ [.symbol .rParen] ∧
        trees = phrases.map Prod.snd
  | 0, _ => .of_fails (.after (fun _ => fails_complain _) _)
  | allowance + 1, ahead => by
      rw [argsAfter]
      refine (gives ahead).bind fun ts t isRight ahead => .peek ?_
      split
      · refine .advance Token.noConfusion fun place _ ahead => ?_
        refine (argsAfter_derives allowance ahead).bind ?_
        rintro _ _ ⟨_ | ⟨x, phrases⟩, areRight, nonempty, rfl, rfl⟩ _
        · exact absurd rfl nonempty
        refine .pure ⟨(ts, t) :: x :: phrases, List.forall_mem_cons.mpr ⟨isRight, areRight⟩,
          List.cons_ne_nil _ _, ?_, rfl⟩
        simp
      · refine .advance Token.noConfusion fun place _ ahead => ?_
        refine .pure ⟨[(ts, t)], List.forall_mem_singleton.mpr isRight,
          List.cons_ne_nil _ _, ?_, rfl⟩
        simp
      · exact .of_fails (fails_complain _)

theorem args_derives : Derives ctx (args term) fun used trees =>
    ∃ phrases, AllRight right phrases ∧ used = appliedTokens [] (phrases.map Prod.fst) ∧
      trees = phrases.map Prod.snd := by
  intro ahead
  rw [args]
  refine (DerivesAt.expect .lParen _).bind ?_
  rintro _ _ rfl ahead
  refine .check .rParen ?_
  split
  · rename_i closes
    cases eq_of_isSymbol closes
    exact .advance Token.noConfusion fun place _ ahead =>
      .pure ⟨[], List.forall_mem_nil _, rfl, rfl⟩
  · refine .still still_remaining fun room => (argsAfter_derives gives room ahead).mono ?_
    rintro _ _ ⟨phrases, areRight, -, rfl, rfl⟩
    exact ⟨phrases, areRight, rfl, rfl⟩

omit gives in
theorem operator_of_operatorFor {mark : Symbol} {count : Nat} {operator : Operator}
    (fits : operatorFor mark count = .ok operator) :
    mark = operator.mark ∧ count = operator.arity := by
  unfold operatorFor at fits
  split at fits
  · cases fits
    exact ⟨rfl, rfl⟩
  · cases fits
    exact ⟨rfl, rfl⟩
  · exact nomatch fits
  · split at fits
    · rename_i found
      cases fits
      cases mark <;> cases found <;> exact ⟨rfl, rfl⟩
    · exact nomatch fits
  · exact nomatch fits

theorem application_derives (mark : Symbol) (place : Position) :
    Derives ctx (application term mark place) fun used tree =>
      ∃ operator phrases, mark = operator.mark ∧ phrases.length = operator.arity ∧
        AllRight right phrases ∧ used = appliedTokens [] (phrases.map Prod.fst) ∧
        tree = .op operator (phrases.map Prod.snd) := by
  intro ahead
  rw [application]
  refine .check .lParen ?_
  split
  · refine (args_derives gives ahead).bind ?_
    rintro _ _ ⟨phrases, areRight, rfl, rfl⟩ _
    split
    · rename_i operator fits
      rw [List.length_map] at fits
      obtain ⟨spelled, arity⟩ := operator_of_operatorFor fits
      exact .pure ⟨operator, phrases, spelled, arity, areRight, List.append_nil _, rfl⟩
    · exact .of_fails (fails_complainAt _ _)
  · exact .of_fails (fails_complainAt _ _)

omit gives in
theorem members_derives (place : Position) : ∀ allowance,
    Derives ctx (members place allowance) fun used names =>
      used = names.flatMap fun name => [.symbol .dot, .name name]
  | 0, _ => .pure rfl
  | allowance + 1, ahead => by
      rw [members]
      refine .check .dot ?_
      split
      · rename_i dot
        cases eq_of_isSymbol dot
        refine .advance Token.noConfusion fun _ _ ahead => ?_
        cases ahead with
        | name name =>
            refine .advance Token.noConfusion fun _ _ ahead => ?_
            refine (members_derives place allowance ahead).bind ?_
            rintro _ names rfl _
            refine .pure ?_
            simp
        | finish => exact .advance_end fun _ => fails_complainAt _ _
        | _ => exact .advance Token.noConfusion fun _ _ ahead => .of_fails (fails_complainAt _ _)
      · exact .pure rfl

omit gives in
/-- A call whose root is bound makes no instance. -/
theorem call_derives {path : Path} (bound : ctx.isBound path.root = true) (args : List Tree)
    (place : Position) :
    Derives ctx (call ctx path args place) fun used tree => used = [] ∧
    tree = .invoke path args := by
  intro ahead serial c ts t c' known stands shown ran
  have sees : ctx.Sees c.names path.root := .of_bound bound c.names
  rw [call, bind_of_ok (sees_of_visible sees)] at ran
  simp only [Bool.not_true, Bool.and_false, Bool.false_and, Bool.false_eq_true, if_false] at ran
  rw [bind_of_ok (requireRoot_of_visible sees place)] at ran
  cases ran
  exact ⟨[], ts, rfl, stands, rfl, rfl⟩

omit gives in
theorem parameters_derives (opening : Position) : ∀ allowance,
    Derives ctx (parameters opening allowance) fun used params =>
      used = params.map .name ++ [.symbol .pipe]
  | 0, _ => .of_fails (.after (fun _ => fails_complainAt _ _) _)
  | allowance + 1, ahead => by
      rw [parameters]
      cases ahead with
      | name name =>
          refine .advance Token.noConfusion fun _ _ ahead => .still (still_define name) fun _ => ?_
          refine (parameters_derives opening allowance ahead).bind ?_
          rintro _ params rfl _
          exact .pure (by simp)
      | symbol mark =>
          cases mark
          case pipe => exact .advance Token.noConfusion fun _ _ ahead => .pure rfl
          all_goals exact .advance Token.noConfusion fun _ _ ahead =>
            .of_fails (fails_complainAt _ _)
      | finish => exact .advance_end fun _ => fails_complainAt _ _
      | _ => exact .advance Token.noConfusion fun _ _ ahead => .of_fails (fails_complainAt _ _)

omit gives in
theorem body_derives {α : Type} {p : Parser α} {right : List Token → α → Prop}
    (h : Derives ctx p right) : Derives ctx (body p) right := by
  intro ahead
  refine .still (still_renamed ([] :: ·)) fun _ => (h ahead).bind fun used a isRight ahead => ?_
  refine .still (still_renamed leave) fun _ => .pure ?_
  rwa [List.append_nil]

theorem function_derives (opening : Position) :
    Derives ctx (function term opening) fun used tree =>
      ∃ header phrases, AllRight right phrases ∧
        used = headerTokens header ++ ((phrases.map Prod.fst).flatten ++ [.symbol .rBrace]) ∧
        tree = .literal (.closure (header.getD []) (.sequence (phrases.map Prod.snd)) none) := by
  rw [function]
  have statements : ∀ params : List String, Derives ctx (do
      let statements ← termsUntil term .rBrace opening "\x7b" (← remaining)
      return Tree.literal (.closure params (.sequence statements) none)) fun used tree =>
        ∃ phrases, AllRight right phrases ∧
          used = (phrases.map Prod.fst).flatten ++ [.symbol .rBrace] ∧
          tree = Tree.literal (.closure params (.sequence (phrases.map Prod.snd)) none) := by
    intro params ahead
    refine .still still_remaining fun room => ?_
    refine (termsUntil_derives gives .rBrace opening _ room ahead).bind ?_
    rintro _ _ ⟨phrases, areRight, rfl, rfl⟩ ahead
    exact .pure ⟨phrases, areRight, List.append_nil _, rfl⟩
  refine body_derives fun ahead => .check .pipe ?_
  split
  · rename_i bar
    cases eq_of_isSymbol bar
    refine .advance Token.noConfusion fun _ _ ahead => .still still_remaining fun room => ?_
    refine (parameters_derives opening room ahead).bind ?_
    rintro _ params rfl ahead
    refine (statements params ahead).mono ?_
    rintro _ _ ⟨phrases, areRight, rfl, rfl⟩
    exact ⟨some params, phrases, areRight, by simp [headerTokens], rfl⟩
  · refine (statements [] ahead).mono ?_
    rintro _ _ ⟨phrases, areRight, rfl, rfl⟩
    exact ⟨none, phrases, areRight, rfl, rfl⟩

end Readers

/-- What a list of terms stands for. -/
theorem IsTerm.listed {levels : Nat} {phrases : List Phrase}
    (areTerms : AllRight (IsTerm levels) phrases) :
    IsTerm (levels + 1) (bracketedTokens (phrases.map Prod.fst))
      (Parser.list (phrases.map Prod.snd)) := by
  rw [Parser.list]
  split
  · rename_i values all
    exact .literals areTerms (literals_of_mapM all)
  · rename_i none
    obtain ⟨t, mem, isCall⟩ := call_of_mapM none
    obtain ⟨x, among, rfl⟩ := List.mem_map.mp mem
    exact .list areTerms ⟨x, among, isCall⟩

section Levels

variable {ctx : Context} {levels : Nat} {term : Parser Tree}
  (gives : Derives ctx term (IsTerm levels))

include gives

theorem named_derives {first : String} (plain : IsPlain first) (bound : ctx.isBound first = true)
    (place : Position) :
    Derives ctx (named ctx term first place) fun used tree =>
      IsTerm (levels + 1) (.name first :: used) tree := by
  intro ahead
  rw [named]
  refine .still still_remaining fun room => (members_derives place room ahead).bind ?_
  rintro _ others rfl ahead
  have rooted : IsRooted ⟨first :: others⟩ := ⟨first, rfl, plain⟩
  have path : ∀ more,
      Token.name first :: ((others.flatMap fun name => [.symbol .dot, .name name]) ++
      more) = pathTokens ⟨first :: others⟩ ++ more := by
    intro more
    rw [pathTokens_cons, List.cons_append]
  refine .peek ?_
  split
  · rename_i _ _ single
    obtain rfl : others = [] := by
      rw [Path.isName, List.length_cons, beq_iff_eq] at single
      exact List.length_eq_zero_iff.mp (Nat.succ.inj single)
    refine .advance Token.noConfusion fun _ _ ahead => .still (still_define _) fun _ => ?_
    refine (gives ahead).bind fun ts t isTerm ahead => .pure ?_
    rw [List.append_nil]
    exact .bind plain isTerm
  · refine (args_derives gives _).bind ?_
    rintro _ _ ⟨phrases, areRight, rfl, rfl⟩ ahead
    refine (call_derives bound _ place ahead).mono ?_
    rintro _ _ ⟨rfl, rfl⟩
    rw [List.append_nil, path, appliedTokens, List.nil_append]
    exact .invoke rooted areRight
  · refine .still (still_requireRoot _ place) fun _ => .pure ?_
    rw [path, List.append_nil]
    exact .reference rooted

theorem termWith_derives : Derives ctx (termWith ctx term) (IsTerm (levels + 1)) := by
  intro ahead
  rw [termWith]
  cases ahead with
  | int i => exact .advance Token.noConfusion fun _ _ ahead => .pure (.constant rfl)
  | float x => exact .advance Token.noConfusion fun _ _ ahead => .pure (.constant rfl)
  | str text => exact .advance Token.noConfusion fun _ _ ahead => .pure (.constant rfl)
  | name name =>
      refine .advance Token.noConfusion fun place known ahead => ?_
      split <;> rename_i shape
      case h_4 | h_5 =>
        cases shape
        exact .pure (.constant rfl)
      case h_6 name' noTrue noFalse =>
        cases shape
        have plain : IsPlain name := ⟨noTrue, noFalse⟩
        exact named_derives gives plain (known.2 name rfl plain) place ahead
      case h_11 => exact .of_fails (fails_complainAt _ _)
      all_goals cases shape
  | symbol mark =>
      have applied : ∀ place, Derives ctx (application term mark place) fun used tree =>
          IsTerm (levels + 1) (.symbol mark :: used) tree := by
        intro place ahead
        refine (application_derives gives mark place ahead).mono ?_
        rintro _ _ ⟨operator, phrases, rfl, arity, areRight, rfl, rfl⟩
        exact .op arity areRight
      refine .advance Token.noConfusion fun place _ ahead => ?_
      cases mark
      case minus =>
        refine .peek ?_
        split
        · exact .advance Token.noConfusion fun _ _ ahead => .pure (.negative rfl)
        · exact .advance Token.noConfusion fun _ _ ahead => .pure (.negative rfl)
        · exact applied place _
      case lBracket =>
        refine .still still_remaining fun room => ?_
        refine (termsUntil_derives gives .rBracket place "[" room ahead).bind ?_
        rintro _ _ ⟨phrases, areRight, rfl, rfl⟩ _
        refine .pure ?_
        rw [List.append_nil]
        exact .listed areRight
      case lBrace =>
        refine (function_derives gives place ahead).mono ?_
        rintro _ _ ⟨header, phrases, areRight, rfl, rfl⟩
        exact .function header areRight
      all_goals
        first
        | exact applied place ahead
        | exact .of_fails (fails_complainAt _ _)
  | newline => exact .advance Token.noConfusion fun _ _ ahead => .of_fails (fails_complainAt _ _)
  | finish => exact .advance_end fun _ => fails_complainAt _ _

end Levels

/-- What is read as a term is one, and nothing is read beyond the levels on which terms may nest. -/
theorem term_derives (ctx : Context) : ∀ levels, Derives ctx (term ctx levels) (IsTerm levels)
  | 0, _ => .of_fails (.after (fun _ => fails_complainAt _ _) _)
  | levels + 1, ahead => termWith_derives (term_derives ctx levels) ahead

/-! ## Scripts -/

/-- All tokens of a script are used up for its terms. -/
theorem script_derives {ctx : Context} {term : Parser Tree} {levels : Nat}
    (gives : Derives ctx term (IsTerm levels)) {serial : Nat} {c' : Cursor}
    (allowance : Nat) :
    ∀ {c : Cursor} {ts : List Token} {trees : List Tree}, ts.length ≤ allowance →
      (∀ t ∈ ts, Known ctx t) → Stands (Numbered serial) c (ts ++ [.finish]) →
      script term allowance c = .ok (trees, c') → c'.serial = serial ∧
      AreTerms levels ts trees := by
  induction allowance with
  | zero =>
      intro c ts trees enough known stands ran
      cases List.length_eq_zero_iff.mp (Nat.le_zero.mp enough)
      cases ran
      exact ⟨stands.keeps, [], List.forall_mem_nil _, rfl, rfl⟩
  | succ allowance ih =>
      intro c ts trees enough known stands ran
      cases ts with
      | nil =>
          rw [script, bind_of_ok stands.peek] at ran
          cases ran
          exact ⟨stands.keeps, [], List.forall_mem_nil _, rfl, rfl⟩
      | cons t ts =>
          rw [script, bind_of_ok stands.peek] at ran
          have goesOn : (do
              let first ← term
              let rest ← script term allowance
              return first :: rest : Parser (List Tree)) c = .ok (trees, c') := by
            split at ran
            · exact absurd rfl (known _ List.mem_cons_self).1
            · exact ran
          obtain ⟨first, c₁, read, ran₁⟩ := ok_of_bind goesOn
          obtain ⟨others, c₂, readOthers, ran₂⟩ := ok_of_bind ran₁
          cases ran₂
          obtain ⟨used, rest, same, stands₁, isTerm⟩ := gives t known stands rfl read
          obtain ⟨u, more, rfl, -⟩ := isTerm.begins
          have shorter : rest.length ≤ allowance := by
            have length := congrArg List.length same
            simp only [List.length_append, List.length_cons] at length enough
            omega
          have known₁ : ∀ t ∈ rest, Known ctx t := fun t mem =>
            known t (same ▸ List.mem_append_right _ mem)
          obtain ⟨numbered, phrases, areTerms, rfl, rfl⟩ := ih shorter known₁ stands₁ readOthers
          refine ⟨numbered, (_, first) :: phrases,
            List.forall_mem_cons.mpr ⟨isTerm, areTerms⟩, ?_, rfl⟩
          rw [same]
          rfl

/-- What a sequence of terms derives is read. -/
theorem AreTerms.script_reads {ctx : Context} {levels serial allowance : Nat} {c : Cursor}
    {ts : List Token} {trees : List Tree} (areTerms : AreTerms levels ts trees)
    (known : ∀ t ∈ ts, Known ctx t) (stands : Stands (Numbered serial) c (ts ++ [.finish]))
    (enough : ts.length ≤ allowance) :
    ∃ c', script (term ctx levels) allowance c = .ok (trees, c') ∧ c'.serial = serial := by
  obtain ⟨phrases, each, rfl, rfl⟩ := areTerms
  have all : ReadsAll (term ctx levels) Prod.fst (fun x t => t = x.2) (Numbered serial) phrases
      (Numbered serial) :=
    reads_all known (fun x mem t inside => mem_flatten mem inside)
      fun x mem known => (each x mem).reads known
  have begins : ∀ x ∈ phrases, Begins x.1 := fun x mem => (each x mem).begins
  have room := Nat.le_trans (length_le_flatten begins) enough
  obtain ⟨trees, c', read, rights, stands'⟩ := Pi.script_reads all begins room stands
  rw [eq_map_of_forall₂ rights] at read
  exact ⟨c', read, stands'.keeps⟩

/-- The grammar is unambiguous. -/
theorem AreTerms.unique {levels : Nat} {ts : List Token} {trees others : List Tree}
    (areTerms : AreTerms levels ts trees) (areOthers : AreTerms levels ts others)
    (noEnd : .finish ∉ ts) : trees = others := by
  obtain ⟨ctx, all⟩ : ∃ ctx : Context, ∀ name, ctx.isBound name = true :=
    ⟨⟨fun _ => true, .empty⟩, fun _ => rfl⟩
  have known : ∀ t ∈ ts, Known ctx t := fun t mem =>
    ⟨fun isEnd => noEnd (isEnd ▸ mem), fun name _ _ => all name⟩
  have stands : Stands (Numbered 0)
      ⟨(ts ++ [Token.finish]).map fun t => Placed.mk t .start, 0, [[]], 0⟩ (ts ++ [.finish]) :=
    ⟨rfl, by simp [Function.comp_def], rfl⟩
  obtain ⟨c₁, read₁, -⟩ := areTerms.script_reads known stands (Nat.le_refl ts.length)
  obtain ⟨c₂, read₂, -⟩ := areOthers.script_reads known stands (Nat.le_refl ts.length)
  exact congrArg Prod.fst (Except.ok.inj (read₁.symm.trans read₂))

/-- Whether a token is part of a script of the compact language, where line ends mean nothing. -/
def isPart : Token → Bool
  | .newline | .finish => false
  | _ => true

/-- The tokens of a text, its line ends and its end apart. -/
def content (placed : List Placed) : List Token := (placed.map Placed.token).filter isPart

theorem map_filter_counts_eq {source : String} {placed : List Placed}
    (cut : tokenize source = .ok placed) :
    (placed.filter counts).map Placed.token = content placed ++ [.finish] := by
  obtain ⟨before, shown, unfinished⟩ := tokenize_whole cut
  have same : ∀ t : Placed, counts t = !t.token.isNewline := by
    rintro ⟨token, place⟩
    cases token <;> rfl
  have kept : (placed.filter counts).map Placed.token =
      (placed.map Placed.token).filter fun t => !t.isNewline := by
    rw [List.filter_map]
    exact congrArg _ (List.filter_congr fun t _ => same t)
  have parts : before.filter (fun t => !t.isNewline) = before.filter isPart := by
    refine List.filter_congr fun t mem => ?_
    cases t with
    | finish => exact absurd mem unfinished
    | _ => rfl
  rw [kept, content, shown, List.filter_append, List.filter_append, parts]
  simp [Token.isNewline, isPart]

theorem finish_not_mem_content (placed : List Placed) : .finish ∉ content placed := by
  intro mem
  exact nomatch (List.mem_filter.mp mem).2

end Pi

/-- Where all names of a text are bound, it is a script of the compact language exactly when its
tokens are a sequence of terms that nest on no more levels than a script may use, and it is read as
the only sequence of trees that these terms stand for. -/
theorem parse_pi_iff {ctx : Context} {source : String} {placed : List Placed}
    (cut : tokenize source = .ok placed)
    (bound : ∀ name, .name name ∈ Pi.content placed → Pi.IsPlain name → ctx.isBound name = true)
    (serial : Nat) :
    (∀ t next, parse .pi ctx source serial = .ok (t, next) ↔ next = serial ∧
      ∃ trees, t = .sequence trees ∧ Pi.AreTerms nestingLimit (Pi.content placed) trees) ∧
    ∀ trees others, Pi.AreTerms nestingLimit (Pi.content placed) trees →
      Pi.AreTerms nestingLimit (Pi.content placed) others → trees = others := by
  have noEnd := Pi.finish_not_mem_content placed
  have known : ∀ t ∈ Pi.content placed, Pi.Known ctx t := fun t mem =>
    ⟨fun isEnd => noEnd (isEnd ▸ mem), fun name isName plain => bound name (isName ▸ mem) plain⟩
  have shown := Pi.map_filter_counts_eq cut
  have stands : Parser.Stands (Parser.Numbered serial) ⟨placed.filter Pi.counts, 0, [[]], serial⟩
      (Pi.content placed ++ [.finish]) := ⟨rfl, shown, rfl⟩
  have enough : (Pi.content placed).length ≤ (placed.filter Pi.counts).length := by
    have length := congrArg List.length shown
    rw [List.length_map, List.length_append] at length
    omega
  refine ⟨fun t next => ?_, fun trees others areTerms areOthers => areTerms.unique areOthers noEnd⟩
  rw [parse, cut]
  change Pi.parse ctx placed serial = _ ↔ _
  rw [Pi.parse]
  dsimp only
  constructor
  · intro parsed
    cases read : Pi.script (Pi.term ctx nestingLimit) (placed.filter Pi.counts).length
        ⟨placed.filter Pi.counts, 0, [[]], serial⟩ with
    | error fault =>
        rw [read] at parsed
        cases parsed
    | ok r =>
        obtain ⟨trees, c⟩ := r
        rw [read] at parsed
        cases parsed
        obtain ⟨numbered, areTerms⟩ := Pi.script_derives (Pi.term_derives ctx nestingLimit) _ enough
          known stands read
        exact ⟨numbered, trees, rfl, areTerms⟩
  · rintro ⟨rfl, trees, rfl, areTerms⟩
    obtain ⟨c, read, numbered⟩ := areTerms.script_reads known stands enough
    rw [read]
    exact congrArg (fun n => Except.ok (Tree.sequence trees, n)) numbered

/-- A function with bars but without parameters, behind a binding that takes two lines. -/
def barred : String := "x =\n-3 {| | -(f.g(x, -1))}"

set_option maxRecDepth 20000 in
theorem parse_pi_iff_barred : ∃ placed, tokenize barred = .ok placed ∧
    (∀ name, .name name ∈ Pi.content placed → Pi.IsPlain name → name ∈ ["x", "f", "g"]) ∧
    Pi.AreTerms nestingLimit (Pi.content placed) [.bind "x" (.literal (.int (-3))),
      .literal (.closure [] (.sequence [.op .neg [.invoke ⟨["f", "g"]⟩
        [.reference ⟨["x"]⟩, .literal (.int (-1))]]]) none)] := by
  have cut : tokenize barred = .ok ((tokenize barred).toOption.getD []) := by cbv
  have shown : Pi.content ((tokenize barred).toOption.getD []) = [.name "x", .symbol .assign,
      .symbol .minus, .int 3, .symbol .lBrace, .symbol .pipe, .symbol .pipe, .symbol .minus,
      .symbol .lParen, .name "f", .symbol .dot, .name "g", .symbol .lParen, .name "x",
      .symbol .comma,
      .symbol .minus, .int 1, .symbol .rParen, .symbol .rParen, .symbol .rBrace] := by cbv
  have among : ∀ name, .name name ∈ Pi.content ((tokenize barred).toOption.getD []) →
      name ∈ ["x", "f", "g"] := by
    intro name mem
    rw [shown] at mem
    simp only [List.mem_cons, List.not_mem_nil, reduceCtorEq, Token.name.injEq, false_or, or_false]
      at mem ⊢
    tauto
  have parsed : parse .pi ⟨fun name => ["x", "f", "g"].contains name, .empty⟩ barred 0 =
      .ok (.sequence [.bind "x" (.literal (.int (-3))),
      .literal (.closure [] (.sequence [.op .neg [.invoke ⟨["f", "g"]⟩
        [.reference ⟨["x"]⟩, .literal (.int (-1))]]]) none)], 0) := by cbv
  have bound : ∀ name, .name name ∈ Pi.content ((tokenize barred).toOption.getD []) →
      Pi.IsPlain name → ["x", "f", "g"].contains name = true := fun name mem _ =>
    List.contains_iff_mem.mpr (among name mem)
  obtain ⟨-, trees, same, areTerms⟩ := ((parse_pi_iff cut bound 0).1 _ _).mp parsed
  cases same
  exact ⟨_, cut, fun name mem _ => among name mem, areTerms⟩

end PeerScript.Script
