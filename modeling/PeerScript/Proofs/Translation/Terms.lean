import PeerScript.Proofs.Translation.Readers
import PeerScript.Script.Language

/-!
# What the compact language can be read as

The terms that the readers of the compact language return nest no deeper than the levels that they
may use, and bind no name that is a literal.
-/

set_option autoImplicit false

namespace PeerScript

open Script (Context)
open Script.Pi (IsPlain)

/-! ## Trees that fit -/

/-- A tree that binds no literal, and that nests on no more levels than given if it is a term. -/
structure Tree.Fits (levels : Nat) (t : Tree) : Prop where
  plain : t.BindsPlain
  shallow : t.IsTerm → t.nesting ≤ levels

/-- Trees of which each fits. -/
structure Tree.AllFit (levels : Nat) (ts : List Tree) : Prop where
  plain : ∀ name ∈ Tree.definesAll ts, IsPlain name
  shallow : Tree.AreTerms ts → Tree.deepest ts ≤ levels

namespace Tree

variable {levels : Nat} {t : Tree} {ts : List Tree}

theorem deepest_literals (vs : List Value) : deepest (vs.map .literal) = Value.deepest vs := by
  induction vs with
  | nil => rfl
  | cons v vs ih => rw [List.map_cons, deepest, nesting, ih, Value.deepest]

theorem allFit_nil : AllFit levels [] := ⟨nofun, fun _ => Nat.zero_le levels⟩

theorem Fits.cons (first : t.Fits levels) (rest : AllFit levels ts) : AllFit levels (t :: ts) := by
  refine ⟨?_, fun terms => ?_⟩
  · rw [definesAll, List.forall_mem_append]
    exact ⟨first.plain, rest.plain⟩
  · rw [AreTerms] at terms
    rw [deepest]
    exact Nat.max_le.mpr ⟨first.shallow terms.1, rest.shallow terms.2⟩

theorem Fits.literal {v : Value} (plain : v.defines = [])
    (shallow : v.IsConstant → v.nesting ≤ levels) :
    (Tree.literal v).Fits levels := by
  refine ⟨?_, fun isTerm => ?_⟩
  · rw [BindsPlain, defines, plain]
    exact List.forall_mem_nil _
  · rw [IsTerm] at isTerm
    rw [nesting]
    exact shallow isTerm

namespace AllFit

variable (h : AllFit levels ts)

include h

theorem call {head : Head} (binds : ∀ name ∈ head.binds, IsPlain name)
    (noSequence : head ≠ .sequence) (args : (Tree.call head ts).IsTerm → AreTerms ts) :
    (Tree.call head ts).Fits (levels + 1) := by
  refine ⟨?_, fun isTerm => ?_⟩
  · rw [BindsPlain, defines, List.forall_mem_append]
    exact ⟨binds, h.plain⟩
  · have deepest := h.shallow (args isTerm)
    rw [nesting]
    · omega
    · exact noSequence

theorem op (operator : Operator) : (Tree.op operator ts).Fits (levels + 1) :=
  h.call nofun nofun fun isTerm => by
    rw [IsTerm] at isTerm
    exact isTerm.2

theorem invoke (path : Path) : (Tree.invoke path ts).Fits (levels + 1) :=
  h.call nofun nofun fun isTerm => by
    rw [IsTerm] at isTerm
    exact isTerm.2

theorem list : (Script.Parser.list ts).Fits (levels + 1) := by
  rw [Script.Parser.list]
  split
  · rename_i vs all
    obtain rfl := literals_of_mapM all
    refine ⟨?_, fun isTerm => ?_⟩
    · rw [BindsPlain, defines, Value.defines, ← definesAll_literals]
      exact h.plain
    · rw [IsTerm, Value.IsConstant, ← areTerms_literals] at isTerm
      have deepest := h.shallow isTerm
      rw [deepest_literals] at deepest
      rw [nesting, Value.nesting]
      omega
  · refine h.call (List.forall_mem_nil _) Head.noConfusion fun isTerm => ?_
    rw [IsTerm] at isTerm
    exact isTerm.2

theorem closure (params : List String) :
    (Tree.literal (.closure params (.sequence ts) none)).Fits (levels + 1) := by
  refine ⟨?_, fun isTerm => ?_⟩
  · rw [BindsPlain, defines, Value.defines, Tree.sequence, defines, Head.binds, List.nil_append]
    exact h.plain
  · rw [IsTerm, Value.IsConstant, Tree.sequence, IsScript] at isTerm
    have deepest := h.shallow isTerm.2.2
    rw [nesting, Value.nesting, Tree.sequence, nesting]
    omega

end AllFit

theorem Fits.bind {name : String} (isPlain : IsPlain name) (h : t.Fits levels) :
    (Tree.bind name t).Fits (levels + 1) :=
  (h.cons allFit_nil).call (List.forall_mem_singleton.mpr isPlain) nofun fun isTerm => by
    rw [IsTerm] at isTerm
    exact isTerm.2.2

end Tree

/-! ## The readers of the compact language -/

namespace Script

open Script.Parser

/-- In front of tokens of which something is known, a parser returns only what is right, and such
tokens are what follows behind it. -/
def Returns (P : Token → Prop) {α : Type} (p : Parser α) (right : α → Prop) : Prop :=
  ∀ ⦃c a c'⦄, c.Shows P → p c = .ok (a, c') → c'.Shows P ∧ right a

namespace Returns

variable {P : Token → Prop} {α β : Type} {p : Parser α} {f : α → Parser β} {right : α → Prop}
  {right₂ : β → Prop}

theorem pure {a : α} (gives : right a) : Returns P (Pure.pure a) right := by
  intro c b c' shows ran
  cases ran
  exact ⟨shows, gives⟩

theorem mono {right' : α → Prop} (h : Returns P p right) (le : ∀ a, right a → right' a) :
    Returns P p right' := by
  intro c a c' shows ran
  obtain ⟨shows', gives⟩ := h shows ran
  exact ⟨shows', le a gives⟩

theorem bind (first : Returns P p right) (next : ∀ a, right a → Returns P (f a) right₂) :
    Returns P (p >>= f) right₂ := by
  intro c b c' shows ran
  obtain ⟨a, c₁, ran₁, ran₂⟩ := ok_of_bind ran
  obtain ⟨shows₁, gives⟩ := first shows ran₁
  exact next a gives shows₁ ran₂

theorem of_fails (fails : p.Fails) : Returns P p right := fun _ _ _ _ ran => absurd ran (fails _ _)

/-- What a parser gives with any names in view. -/
theorem of_gives (h : ∀ names, Gives P p names fun a _ => right a) : Returns P p right := by
  intro c a c' shows ran
  obtain ⟨shows', -, gives⟩ := h c.names shows rfl ran
  exact ⟨shows', gives⟩

theorem of_keeps (h : ∀ names, Keeps P p names right) : Returns P p right :=
  of_gives fun names => (h names).mono fun _ _ gives => gives.2

theorem get : Returns P get fun c => c.Shows P :=
  of_keeps fun _ => Gives.get.mono fun _ _ gives => ⟨gives.1, gives.2.1⟩

theorem set {c : Cursor} (shows : c.Shows P) : Returns P (set c : Parser PUnit) fun _ => True := by
  intro c a c' _ ran
  cases ran
  exact ⟨shows, trivial⟩

theorem here : Returns P here fun t => P t.token := of_keeps fun _ => Gives.here

theorem peek : Returns P peek P := of_keeps fun _ => Gives.peek

theorem advance : Returns P advance fun t => P t.token := of_keeps fun _ => Gives.advance

theorem check (mark : Symbol) : Returns P (check mark) fun _ => True :=
  of_keeps fun _ => Gives.check mark

theorem expect (mark : Symbol) (what : String) : Returns P (expect mark what) fun _ => True :=
  of_keeps fun _ => Gives.expect mark what

theorem remaining : Returns P remaining fun _ => True := of_keeps fun _ => Gives.remaining

theorem define (name : String) : Returns P (define name) fun _ => True :=
  of_gives fun _ => (Gives.define name).mono fun _ _ _ => trivial

theorem sees (ctx : Context) (name : String) : Returns P (sees ctx name) fun _ => True :=
  of_keeps fun _ => (Gives.sees ctx name).mono fun _ _ gives => ⟨gives.1, trivial⟩

theorem requireRoot (ctx : Context) (path : Path) (place : Text.Position) :
    Returns P (requireRoot ctx path place) fun _ => True :=
  of_keeps fun _ => (Gives.requireRoot ctx path place).mono fun _ _ gives => ⟨gives.1, trivial⟩

/-- A step that passes over tokens. -/
theorem drop {g : Cursor → Cursor} (rest : ∀ c, (g c).rest ⊆ c.rest) :
    Returns P (modify g : Parser PUnit) fun _ => True := by
  intro c a c' shows ran
  cases ran
  exact ⟨⟨shows.finish, fun t mem => shows.rest t (rest c mem)⟩, trivial⟩

/-- A step that reads nothing. -/
theorem step {g : Cursor → Cursor} (rest : ∀ c, (g c).rest = c.rest) :
    Returns P (modify g : Parser PUnit) fun _ => True :=
  drop fun c => by rw [rest c]; exact List.Subset.refl _

theorem bracketed (h : Returns P p right) : Returns P (bracketed p) right := by
  refine bind (step fun _ => rfl) fun _ _ => h.bind fun _ gives => ?_
  exact bind (step fun _ => rfl) fun _ _ => pure gives

theorem body (h : Returns P p right) : Returns P (body p) right := by
  refine bind (step fun _ => rfl) fun _ _ => h.bind fun _ gives => ?_
  exact bind (step fun _ => rfl) fun _ _ => pure gives

theorem reference (ctx : Context) {path : Path} (place : Text.Position) {right : Tree → Prop}
    (gives : right (.reference path)) : Returns P (reference ctx path place) right :=
  (requireRoot ctx path place).bind fun _ _ => pure gives

end Returns

/-- What a registered type makes is an instance. -/
theorem instance_of_decode {r : Registry} {name : String} {fields : List Value}
    {serial : Nat} {v : Value} (made : r.decode name fields serial = .ok v) :
    ∃ kind own, v = .handle kind serial own := by
  rw [Registry.decode] at made
  split at made
  · exact nomatch made
  split at made
  · cases made
    exact ⟨_, _, rfl⟩
  · exact nomatch made

/-- What a call is read as: under the name of a registered type an instance, at once or, if an
argument is no literal, when it is run; or else a call of what the path names. -/
theorem call_returns {P : Token → Prop} (ctx : Context) (path : Path) (args : List Tree)
    (place : Text.Position) : Returns P (call ctx path args place) fun t =>
      (ctx.registry.contains path.root = true ∧
        ((∃ kind serial fields, t = .literal (.handle kind serial fields)) ∨
          (∃ a ∈ args, a.isLiteral = false) ∧ t = .call (.construct path.root) args)) ∨
      t = .invoke path args := by
  rw [call]
  refine (Returns.sees ctx path.root).bind fun found _ => ?_
  split
  · rename_i types
    have registered := (Bool.and_eq_true_iff.mp types).2
    split
    · refine Returns.get.bind fun c shows => ?_
      split
      · rename_i made
        obtain ⟨kind, fields, rfl⟩ := instance_of_decode made
        refine Returns.bind (Returns.set ⟨shows.finish, shows.rest⟩) fun _ _ => .pure ?_
        exact .inl ⟨registered, .inl ⟨kind, c.serial, fields, rfl⟩⟩
      · exact .of_fails (fails_complainAt _ _)
      · exact .of_fails fun _ _ ran => by cases ran
    · rename_i some
      exact .pure (.inl ⟨registered, .inr ⟨call_of_mapM some, rfl⟩⟩)
  · exact (Returns.requireRoot ctx path place).bind fun _ _ => .pure (.inr rfl)

namespace Pi

/-- Terms are right when the terms that stand in them are. -/
structure Makes (P : Token → Prop) (ctx : Context) (part : Tree → Prop) (parts : List Tree → Prop)
    (whole : Tree → Prop) : Prop where
  nil : parts []
  cons : ∀ {t ts}, part t → parts ts → parts (t :: ts)
  bool : ∀ b, whole (.literal (.bool b))
  int : ∀ {i}, P (.int i) → whole (.literal (.int i))
  negative : ∀ {i}, P (.int i) → whole (.literal (.int (-i)))
  float : ∀ x, whole (.literal (.float x))
  str : ∀ text, whole (.literal (.str text))
  reference : ∀ first others, whole (.reference ⟨first :: others⟩)
  bind : ∀ {name t}, IsPlain name → part t → whole (.bind name t)
  call : ∀ {first others ts} place, parts ts → Returns P (call ctx ⟨first :: others⟩ ts place) whole
  op : ∀ {operator ts}, ts.length = operator.arity → parts ts → whole (.op operator ts)
  list : ∀ {ts}, parts ts → whole (Parser.list ts)
  closure : ∀ {ts} params, parts ts → whole (.literal (.closure params (.sequence ts) none))

theorem arity_of_binary {mark : Symbol} {operator : Operator}
    (known : binary? mark = some operator) :
    operator.arity = 2 := by
  cases mark <;> cases known <;> rfl

theorem arity_of_operatorFor {mark : Symbol} {count : Nat} {operator : Operator}
    (found : operatorFor mark count = .ok operator) : count = operator.arity := by
  unfold operatorFor at found
  split at found
  · cases found
    rfl
  · cases found
    rfl
  · exact nomatch found
  · split at found
    · rename_i known
      cases found
      exact (arity_of_binary known).symm
    · exact nomatch found
  · exact nomatch found

section Terms

variable {P : Token → Prop} {ctx : Context} {part : Tree → Prop} {parts : List Tree → Prop}
  {whole : Tree → Prop} (makes : Makes P ctx part parts whole) {term : Parser Tree}
  (gives : Returns P term part)

include makes gives

theorem termsUntil_returns (close : Symbol) (opening : Text.Position) (delimiter : String) :
    ∀ allowance, Returns P (termsUntil term close opening delimiter allowance) parts
  | 0 => .of_fails (fails_complainAt _ _)
  | allowance + 1 => by
      rw [termsUntil]
      refine (Returns.check close).bind fun closed _ => ?_
      split
      · exact Returns.advance.bind fun _ _ => .pure makes.nil
      refine Returns.peek.bind fun t _ => ?_
      split
      · exact .of_fails (fails_complainAt _ _)
      · exact gives.bind fun first isRight =>
          (termsUntil_returns close opening delimiter allowance).bind fun rest areRight =>
            .pure (makes.cons isRight areRight)

theorem argsAfter_returns : ∀ allowance, Returns P (argsAfter term allowance) parts
  | 0 => .of_fails (.after (fun _ => fails_complain _) _)
  | allowance + 1 => by
      rw [argsAfter]
      refine gives.bind fun first isRight => Returns.peek.bind fun t _ => ?_
      split
      · exact Returns.advance.bind fun _ _ => (argsAfter_returns allowance).bind
          fun rest areRight =>
          .pure (makes.cons isRight areRight)
      · exact Returns.advance.bind fun _ _ => .pure (makes.cons isRight makes.nil)
      · exact .of_fails (fails_complain _)

theorem args_returns : Returns P (args term) parts := by
  rw [args]
  refine (Returns.expect .lParen _).bind fun _ _ => (Returns.check .rParen).bind fun closed _ => ?_
  split
  · exact Returns.advance.bind fun _ _ => .pure makes.nil
  · exact Returns.remaining.bind fun room _ => argsAfter_returns makes gives room

theorem application_returns (mark : Symbol) (place : Text.Position) :
    Returns P (application term mark place) whole := by
  rw [application]
  refine (Returns.check .lParen).bind fun applied _ => ?_
  split
  · refine (args_returns makes gives).bind fun operands areRight => ?_
    split
    · rename_i found
      exact .pure (makes.op (arity_of_operatorFor found) areRight)
    · exact .of_fails (fails_complainAt _ _)
  · exact .of_fails (fails_complainAt _ _)

omit makes gives in
theorem members_returns (place : Text.Position) :
    ∀ allowance, Returns P (members place allowance) fun _ => True
  | 0 => .pure trivial
  | allowance + 1 => by
      rw [members]
      refine (Returns.check .dot).bind fun dotted _ => ?_
      split
      · refine Returns.advance.bind fun _ _ => Returns.advance.bind fun t _ => ?_
        split
        · exact (members_returns place allowance).bind fun _ _ => .pure trivial
        · exact .of_fails (fails_complainAt _ _)
      · exact .pure trivial

theorem named_returns {first : String} (isPlain : IsPlain first) (place : Text.Position) :
    Returns P (named ctx term first place) whole := by
  rw [named]
  refine Returns.remaining.bind fun room _ => (members_returns place room).bind fun others _ =>
    Returns.peek.bind fun t _ => ?_
  split
  · exact Returns.advance.bind fun _ _ => (Returns.define _).bind fun _ _ =>
      gives.bind fun value isRight => .pure (makes.bind isPlain isRight)
  · exact (args_returns makes gives).bind fun operands areRight => makes.call place areRight
  · exact .reference ctx place (makes.reference _ _)

omit makes gives in
theorem parameters_returns (opening : Text.Position) :
    ∀ allowance, Returns P (parameters opening allowance) fun _ => True
  | 0 => .of_fails (.after (fun _ => fails_complainAt _ _) _)
  | allowance + 1 => by
      rw [parameters]
      refine Returns.advance.bind fun t _ => ?_
      split
      · exact .pure trivial
      · exact (Returns.define _).bind fun _ _ =>
          (parameters_returns opening allowance).bind fun _ _ => .pure trivial
      · exact .of_fails (fails_complainAt _ _)

theorem function_returns (opening : Text.Position) : Returns P (function term opening) whole := by
  rw [function]
  have goesOn : ∀ params : List String, Returns P (do
      let statements ← termsUntil term .rBrace opening "\x7b" (← remaining)
      return .literal (.closure params (.sequence statements) none)) whole :=
    fun params => Returns.remaining.bind fun room _ =>
      (termsUntil_returns makes gives .rBrace opening _ room).bind fun statements areRight =>
        .pure (makes.closure params areRight)
  refine Returns.body ((Returns.check .pipe).bind fun bar _ => ?_)
  split
  · exact Returns.advance.bind fun _ _ => Returns.remaining.bind fun room _ =>
      (parameters_returns opening room).bind fun params _ => goesOn params
  · exact goesOn []

theorem termWith_returns : Returns P (termWith ctx term) whole := by
  rw [termWith]
  refine Returns.advance.bind fun first known => ?_
  split <;> rename_i shape
  · exact .pure (makes.int (shape ▸ known))
  · exact .pure (makes.float _)
  · exact .pure (makes.str _)
  · exact .pure (makes.bool _)
  · exact .pure (makes.bool _)
  · rename_i noTrue noFalse
    exact named_returns makes gives ⟨noTrue, noFalse⟩ _
  · refine Returns.peek.bind fun t known => ?_
    split
    · exact Returns.advance.bind fun _ _ => .pure (makes.negative known)
    · exact Returns.advance.bind fun _ _ => .pure (makes.float _)
    · exact application_returns makes gives .minus _
  · exact Returns.remaining.bind fun room _ =>
      (termsUntil_returns makes gives .rBracket _ _ room).bind fun items areRight =>
        .pure (makes.list areRight)
  · exact function_returns makes gives _
  · split
    · exact application_returns makes gives _ _
    · exact .of_fails (fails_complainAt _ _)
  · exact .of_fails (fails_complainAt _ _)

theorem script_returns : ∀ allowance, Returns P (script term allowance) parts
  | 0 => .pure makes.nil
  | allowance + 1 => by
      rw [script]
      refine Returns.peek.bind fun t _ => ?_
      split
      · exact .pure makes.nil
      · exact gives.bind fun first isRight =>
          (script_returns allowance).bind fun rest areRight => .pure (makes.cons isRight areRight)

end Terms

section Levels

variable {P : Token → Prop} {ctx : Context} {part : Nat → Tree → Prop}
  {parts : Nat → List Tree → Prop}
  (makes : ∀ levels, Makes P ctx (part levels) (parts levels) (part (levels + 1)))

include makes

/-- What one level makes of the level below holds of all terms. -/
theorem term_returns : ∀ levels, Returns P (Pi.term ctx levels) (part levels)
  | 0 => .of_fails (.after (fun _ => fails_complainAt _ _) _)
  | levels + 1 => termWith_returns (makes levels) (term_returns levels)

/-- A script of the compact language is a sequence of terms. -/
theorem parse_returns {placed : List Placed} {serial next : Nat} {t : Tree} (finish : P .finish)
    (known : ∀ t ∈ placed, P t.token) (parsed : parse ctx placed serial = .ok (t, next)) :
    ∃ ts, t = .sequence ts ∧ parts nestingLimit ts := by
  rw [parse] at parsed
  dsimp only at parsed
  cases read : script (Pi.term ctx nestingLimit) (placed.filter counts).length
      ⟨placed.filter counts, 0, [[]], serial⟩ with
  | error fault =>
      rw [read] at parsed
      cases parsed
  | ok r =>
      obtain ⟨ts, c⟩ := r
      rw [read] at parsed
      cases parsed
      have shows : Cursor.Shows P ⟨placed.filter counts, 0, [[]], serial⟩ :=
        ⟨finish, fun t mem => known t (List.mem_of_mem_filter mem)⟩
      have right :=
        script_returns (makes nestingLimit) (term_returns makes nestingLimit) _ shows read
      exact ⟨ts, rfl, right.2⟩

end Levels

/-- Where no types are registered, terms fit on one level more than the terms in them. -/
theorem makes_fitting {P : Token → Prop} {ctx : Context}
    (bare : ∀ name, ctx.registry.contains name = false) (levels : Nat) :
    Makes P ctx (Tree.Fits levels) (Tree.AllFit levels) (Tree.Fits (levels + 1)) := by
  have one : 1 ≤ levels + 1 := Nat.le_add_left 1 levels
  have numeral : ∀ i, (Tree.literal (.int i)).Fits (levels + 1) :=
    fun i => .literal rfl fun constant => by
    rw [Value.IsConstant] at constant
    rw [Value.nesting, if_neg constant]
    exact one
  exact {
    nil := Tree.allFit_nil
    cons := Tree.Fits.cons
    bool := fun b => .literal rfl fun _ => one
    int := fun _ => numeral _
    negative := fun _ => numeral _
    float := fun x => .literal rfl fun _ => one
    str := fun text => .literal rfl fun _ => one
    reference := fun first others => ⟨nofun, fun _ => one⟩
    bind := Tree.Fits.bind
    call := fun place fit => by
      refine (call_returns ctx _ _ place).mono ?_
      rintro t (⟨registered, -⟩ | rfl)
      · exact absurd registered (by rw [bare]; decide)
      · exact fit.invoke _
    op := fun _ fit => fit.op _
    list := fun fit => fit.list
    closure := fun params fit => fit.closure params }

end Pi

/-- What a text of the compact language is read as, where no types are registered, fits the
language. -/
theorem parse_pi_fits {ctx : Context} (bare : ∀ name, ctx.registry.contains name = false)
    {source : String} {serial next : Nat} {t : Tree}
    (parsed : parse .pi ctx source serial = .ok (t, next)) :
    t.BindsPlain ∧ (t.IsScript → t.nesting ≤ nestingLimit) := by
  rw [parse] at parsed
  split at parsed
  · exact nomatch parsed
  obtain ⟨ts, rfl, fit⟩ := Pi.parse_returns (P := fun _ => True) (Pi.makes_fitting bare) trivial
    (fun _ _ => trivial) parsed
  refine ⟨?_, fun isScript => ?_⟩
  · rw [Tree.BindsPlain, Tree.sequence, Tree.defines, Head.binds, List.nil_append]
    exact fit.plain
  · rw [Tree.sequence, Tree.IsScript] at isScript
    rw [Tree.sequence, Tree.nesting]
    exact fit.shallow isScript

end Script

end PeerScript
