import PeerScript.Proofs.Translation.Readers

/-!
# Names that are not in view

`Tree.missing` lists the names that a tree uses where they are not in view, in the order in which
they are looked up: a binding brings its name into view in front of its value, what a function binds
stays inside of it, and what is called is looked up behind the arguments.  A tree misses nothing
exactly if it is in scope.

`Checks` compares what a parser does in two contexts.  Whatever it reads in the one, it reads the
same in the other, or stops at the first name that is missing there.  There is one law for each
primitive reader, and one for a reader behind another one.
-/

set_option autoImplicit false

namespace PeerScript

open Script (Context Cursor Parser Placed Symbol Token)
open Text (Position)

/-! ## Missing names -/

/-- The name, unless it is in view. -/
def Script.Context.unseen (ctx : Context) (names : List (List String)) (name : String) :
    List String :=
  if names.any (·.contains name) || ctx.isBound name then [] else [name]

/-- The name that a head looks for in vain. -/
def Head.missing (ctx : Context) (names : List (List String)) : Head → List String
  | .invoke path => ctx.unseen names path.root
  | _ => []

mutual

/-- The names that the functions of a value use where they are not in view. -/
def Value.missing (ctx : Context) : Value → List (List String) → List String
  | .list items, names => Value.allMissing ctx items names
  | .closure params body _, names => body.missing ctx (params.reverse :: names)
  | .handle _ _ fields, names => Value.allMissing ctx fields names
  | _, _ => []

/-- The names that the functions of values use where they are not in view. -/
def Value.allMissing (ctx : Context) : List Value → List (List String) → List String
  | [], _ => []
  | v :: rest, names => v.missing ctx names ++ Value.allMissing ctx rest names

/-- The names that a tree uses where they are not in view, in the order in which they are looked
up. -/
def Tree.missing (ctx : Context) : Tree → List (List String) → List String
  | .literal v, names => v.missing ctx names
  | .reference path, names => ctx.unseen names path.root
  | .call head args, names =>
      Tree.allMissing ctx args (names.modifyHead (head.binds ++ ·)) ++
        head.missing ctx (names.modifyHead ((Tree.bindsAll args ++ head.binds) ++ ·))

/-- The names that trees, one after another, use where they are not in view. -/
def Tree.allMissing (ctx : Context) : List Tree → List (List String) → List String
  | [], _ => []
  | t :: rest, names =>
      t.missing ctx names ++ Tree.allMissing ctx rest (names.modifyHead (t.binds ++ ·))

end

theorem Script.Context.unseen_eq_nil_iff (ctx : Context) (names : List (List String))
    (name : String) :
    ctx.unseen names name = [] ↔ ctx.Sees names name := by
  rw [Context.unseen, Context.Sees]
  split <;> simp_all

theorem Head.missing_eq_nil_iff (ctx : Context) (names : List (List String)) (head : Head) :
    head.missing ctx names = [] ↔ head.InScope ctx names := by
  cases head with
  | invoke path => exact ctx.unseen_eq_nil_iff names path.root
  | _ => exact ⟨fun _ => trivial, fun _ => rfl⟩

mutual

theorem Value.missing_eq_nil_iff (ctx : Context) : ∀ (v : Value) (names : List (List String)),
    v.missing ctx names = [] ↔ v.InScope ctx names
  | .list items, names => by
      rw [Value.missing, Value.InScope]
      exact Value.allMissing_eq_nil_iff ctx items names
  | .closure params body home, names => by
      rw [Value.missing, Value.InScope]
      exact Tree.missing_eq_nil_iff ctx body _
  | .handle kind serial fields, names => by
      rw [Value.missing, Value.InScope]
      exact Value.allMissing_eq_nil_iff ctx fields names
  | .bool _, _ | .int _, _ | .float _, _ | .str _, _ | .native _, _ | .object _, _ => by
      simp only [Value.missing, Value.InScope]

theorem Value.allMissing_eq_nil_iff (ctx : Context) :
    ∀ (vs : List Value) (names : List (List String)),
    Value.allMissing ctx vs names = [] ↔ Value.AreInScope ctx vs names
  | [], _ => by simp only [Value.allMissing, Value.AreInScope]
  | v :: vs, names => by
      rw [Value.allMissing, Value.AreInScope, List.append_eq_nil_iff,
        Value.missing_eq_nil_iff ctx v, Value.allMissing_eq_nil_iff ctx vs]

/-- A tree misses nothing exactly if it finds in view all names that it uses. -/
theorem Tree.missing_eq_nil_iff (ctx : Context) : ∀ (t : Tree) (names : List (List String)),
    t.missing ctx names = [] ↔ t.InScope ctx names
  | .literal v, names => by
      rw [Tree.missing, Tree.InScope]
      exact Value.missing_eq_nil_iff ctx v names
  | .reference path, names => by
      rw [Tree.missing, Tree.InScope]
      exact ctx.unseen_eq_nil_iff names path.root
  | .call head args, names => by
      rw [Tree.missing, Tree.InScope, List.append_eq_nil_iff, Tree.allMissing_eq_nil_iff ctx args,
        Head.missing_eq_nil_iff]

theorem Tree.allMissing_eq_nil_iff (ctx : Context) :
    ∀ (ts : List Tree) (names : List (List String)),
    Tree.allMissing ctx ts names = [] ↔ Tree.AreInScope ctx ts names
  | [], _ => by simp only [Tree.allMissing, Tree.AreInScope]
  | t :: ts, names => by
      rw [Tree.allMissing, Tree.AreInScope, List.append_eq_nil_iff, Tree.missing_eq_nil_iff ctx t,
        Tree.allMissing_eq_nil_iff ctx ts]

end

theorem Tree.allMissing_literals (ctx : Context) (vs : List Value) (names : List (List String)) :
    Tree.allMissing ctx (vs.map .literal) names = Value.allMissing ctx vs names := by
  induction vs with
  | nil => simp only [List.map_nil, Tree.allMissing, Value.allMissing]
  | cons v vs ih =>
      rw [List.map_cons, Tree.allMissing, Tree.missing, Tree.binds_literal,
        modifyHead_nil_append, ih, Value.allMissing]

/-! ## What trees miss that are read one after another -/

/-- What a tree misses, and the names that are in view behind it. -/
structure Tree.Misses (ctx : Context) (names : List (List String)) (t : Tree)
    (names' : List (List String)) (missed : List String) : Prop where
  shown : names' = names.modifyHead (t.binds ++ ·)
  missed : missed = t.missing ctx names

/-- What trees miss, one after another, and the names that are in view behind them. -/
structure Tree.AllMiss (ctx : Context) (names : List (List String)) (ts : List Tree)
    (names' : List (List String)) (missed : List String) : Prop where
  shown : names' = names.modifyHead (Tree.bindsAll ts ++ ·)
  missed : missed = Tree.allMissing ctx ts names

namespace Tree

variable {ctx : Context} {names names' names'' : List (List String)} {t : Tree} {ts : List Tree}
  {missed more : List String}

theorem allMiss_nil : AllMiss ctx names [] names [] :=
  ⟨(modifyHead_nil_append names).symm, by rw [allMissing]⟩

theorem Misses.opened (h : t.Misses ctx names names' missed) (opened : names ≠ []) :
    names' ≠ [] := by
  rw [h.shown]
  simpa using opened

theorem Misses.cons (first : t.Misses ctx names names' missed)
    (rest : AllMiss ctx names' ts names'' more) :
    AllMiss ctx names (t :: ts) names'' (missed ++ more) := by
  obtain ⟨rfl, rfl⟩ := first
  refine ⟨?_, ?_⟩
  · rw [rest.shown, bindsAll, modifyHead_append]
  · rw [rest.missed, allMissing]

/-- A literal without functions. -/
theorem misses_literal {v : Value} (nothing : v.missing ctx names = []) :
    (Tree.literal v).Misses ctx names names [] :=
  ⟨(modifyHead_nil_append names).symm, by rw [missing, nothing]⟩

theorem misses_reference (path : Path) :
    (Tree.reference path).Misses ctx names names (ctx.unseen names path.root) :=
  ⟨(modifyHead_nil_append names).symm, by rw [missing]⟩

namespace AllMiss

variable (h : AllMiss ctx names ts names' missed)

include h

/-- A head that binds nothing looks up behind its arguments. -/
theorem call (head : Head) (binds : head.binds = []) :
    (Tree.call head ts).Misses ctx names names' (missed ++ head.missing ctx names') := by
  obtain ⟨rfl, rfl⟩ := h
  refine ⟨?_, ?_⟩
  · rw [Tree.binds, binds, List.append_nil]
  · rw [missing, binds, List.append_nil, modifyHead_nil_append]

theorem op (operator : Operator) : (Tree.op operator ts).Misses ctx names names' missed := by
  have call := h.call (.op operator) rfl
  rwa [Head.missing, List.append_nil] at call
  exact nofun

theorem list : (Script.Parser.list ts).Misses ctx names names' missed := by
  rw [Script.Parser.list]
  split
  · rename_i vs all
    obtain rfl := literals_of_mapM all
    have nothing : bindsAll (vs.map .literal) = [] := by
      clear h all
      induction vs with
      | nil => rfl
      | cons v vs ih => rw [List.map_cons, bindsAll, ih, binds_literal, List.append_nil]
    refine ⟨?_, ?_⟩
    · rw [h.shown, nothing, binds_literal]
    · rw [h.missed, missing, Value.missing, allMissing_literals]
  · have call := h.call .list rfl
    rwa [Head.missing, List.append_nil] at call
    exact nofun

end AllMiss

theorem Misses.unary (operator : Operator) (operand : t.Misses ctx names names' missed) :
    (Tree.op operator [t]).Misses ctx names names' missed := by
  simpa using (operand.cons allMiss_nil).op operator

theorem Misses.pair {u : Tree} (operator : Operator) (left : t.Misses ctx names names' missed)
    (right : u.Misses ctx names' names'' more) :
    (Tree.op operator [t, u]).Misses ctx names names'' (missed ++ more) := by
  simpa using (left.cons (right.cons allMiss_nil)).op operator

theorem Misses.negated (operand : t.Misses ctx names names' missed) :
    (Script.Rho.negated t).Misses ctx names names' missed := by
  unfold Script.Rho.negated
  split
  · exact ⟨operand.shown, by rw [operand.missed]; simp only [missing, Value.missing]⟩
  · exact ⟨operand.shown, by rw [operand.missed]; simp only [missing, Value.missing]⟩
  · exact operand.unary .neg

/-- A function misses what its body misses behind its parameters. -/
theorem AllMiss.closure {params : List String}
    (body : AllMiss ctx (params.reverse :: names) ts names' missed) :
    (∃ inner, names' = inner :: names) ∧
      (Tree.literal (.closure params (.sequence ts) none)).Misses ctx names names missed := by
  refine ⟨⟨_, body.shown⟩, (modifyHead_nil_append names).symm, ?_⟩
  rw [body.missed, missing, Value.missing, sequence, missing, Head.binds, modifyHead_nil_append,
    Head.missing, List.append_nil]
  exact fun _ => Head.noConfusion

/-- A binding brings its name into view in front of its value. -/
theorem Misses.bind {name : String}
    (value : t.Misses ctx (names.modifyHead (name :: ·)) names' missed) :
    (Tree.bind name t).Misses ctx names names' missed := by
  obtain ⟨rfl, rfl⟩ := value
  refine ⟨?_, ?_⟩
  · rw [Tree.bind, Tree.binds, bindsAll, bindsAll, List.nil_append, Head.binds]
    exact modifyHead_append [name] t.binds names
  · rw [Tree.bind, missing, allMissing, allMissing, List.append_nil, Head.missing, List.append_nil]
    · rfl
    · exact fun _ => Head.noConfusion

end Tree

/-! ## The same script in another context -/

namespace Script

/-- How a parser ends in one context that succeeds in another one, where it misses the given names:
in the same way, or at the place of the first of them. -/
def Outcome (placed : List Placed) {α : Type} (done : α × Cursor) :
    List String → Except Fault (α × Cursor) → Prop
  | [], r => r = .ok done
  | name :: _, r => ∃ place, ⟨.name name, place⟩ ∈ placed ∧ r = .error (.unknownName place name)

/-- With the given names in view, and in front of tokens of the script, the first parser returns
only what is right for the names that are in view behind it and the names that the second one
misses; and the second one does the same as the first one, unless it misses a name. -/
def Checks (placed : List Placed) {α : Type} (p₀ p : Parser α) (names : List (List String))
    (right : α → List (List String) → List String → Prop) : Prop :=
  ∀ ⦃c a c'⦄, c.rest ⊆ placed → c.names = names → p₀ c = .ok (a, c') →
    c'.rest ⊆ placed ∧ ∃ missed, right a c'.names missed ∧ Outcome placed (a, c') missed (p c)

/-- A parser that is the same in both contexts, leaves the names in view as they are, and misses
none. -/
abbrev Looks (placed : List Placed) {α : Type} (p : Parser α) (names : List (List String))
    (right : α → Prop) : Prop :=
  Checks placed p p names fun a names' missed => names' = names ∧ missed = [] ∧ right a

/-- Whichever names are in view, a reader of trees misses what its trees miss. -/
def AreTerms (placed : List Placed) (ctx : Context) (term₀ term : Parser Tree) : Prop :=
  ∀ names, names ≠ [] → Checks placed term₀ term names (Tree.Misses ctx names)

namespace Checks

open Script.Parser

variable {placed : List Placed} {α β : Type} {p₀ p : Parser α} {f₀ f : α → Parser β}
  {names : List (List String)} {right right' : α → List (List String) → List String → Prop}
  {right₂ : β → List (List String) → List String → Prop}

theorem mono (h : Checks placed p₀ p names right) (le : ∀ a names' missed, right a names' missed →
    right' a names' missed) : Checks placed p₀ p names right' := by
  intro c a c' within shown ran
  obtain ⟨within', missed, gives, outcome⟩ := h within shown ran
  exact ⟨within', missed, le _ _ _ gives, outcome⟩

theorem pure {a : α} (gives : right a names []) :
    Checks placed (Pure.pure a) (Pure.pure a) names right := by
  intro c b c' within shown ran
  cases ran
  exact ⟨within, [], shown ▸ gives, rfl⟩

/-- What is missed by one parser comes before what is missed by the parser behind it. -/
theorem bind (first : Checks placed p₀ p names right)
    (next : ∀ a names' missed, right a names' missed →
      Checks placed (f₀ a) (f a) names' fun b names'' more => right₂ b names'' (missed ++ more)) :
    Checks placed (p₀ >>= f₀) (p >>= f) names right₂ := by
  intro c b c' within shown ran
  obtain ⟨a, c₁, ran₁, ran₂⟩ := ok_of_bind ran
  obtain ⟨within₁, missed, gives, outcome⟩ := first within shown ran₁
  obtain ⟨within₂, more, last, outcome₂⟩ := next a _ missed gives within₁ rfl ran₂
  refine ⟨within₂, missed ++ more, last, ?_⟩
  cases missed with
  | nil =>
      have same : p c = .ok (a, c₁) := outcome
      rw [bind_of_ok same]
      exact outcome₂
  | cons name _ =>
      obtain ⟨place, mem, stopped⟩ := outcome
      refine ⟨place, mem, ?_⟩
      change (p c >>= fun r => f r.1 r.2) = _
      rw [stopped]
      rfl

/-- Behind a parser that is the same in both contexts. -/
theorem andThen {looked : α → Prop} (first : Looks placed p names looked)
    (next : ∀ a, looked a → Checks placed (f₀ a) (f a) names right₂) :
    Checks placed (p >>= f₀) (p >>= f) names right₂ := by
  refine first.bind fun a names' missed ⟨same, nothing, gives⟩ => ?_
  subst same nothing
  exact next a gives

theorem of_fails (fails : p₀.Fails) : Checks placed p₀ p names right :=
  fun _ _ _ _ _ ran => absurd ran (fails _ _)

/-- A step that reads nothing. -/
theorem step {g : Cursor → Cursor} (change : List (List String) → List (List String))
    (rest : ∀ c, (g c).rest ⊆ c.rest) (shown : ∀ c, (g c).names = change c.names) :
    Checks placed (modify g : Parser PUnit) (modify g) names
      fun _ names' missed => names' = change names ∧ missed = [] := by
  intro c a c' within same ran
  cases ran
  exact ⟨fun t mem => within (rest c mem), [], ⟨by rw [shown c, same], rfl⟩, rfl⟩

/-! ### Looking at tokens -/

theorem get : Looks placed get names fun c => c.rest ⊆ placed ∧ c.names = names := by
  intro c d c' within shown ran
  cases ran
  exact ⟨within, [], ⟨shown, rfl, within, shown⟩, rfl⟩

/-- A token that has been taken is one of the script, unless the script is at its end. -/
theorem mem_of_next {c : Cursor} (within : c.rest ⊆ placed) {name : String}
    (isName : c.next.token = .name name) : c.next ∈ placed := by
  unfold Cursor.next at isName ⊢
  cases shape : c.rest with
  | nil =>
      rw [shape] at isName
      exact nomatch isName
  | cons t rest =>
      rw [shape] at within
      exact within List.mem_cons_self

theorem within_settled {c : Cursor} (within : c.rest ⊆ placed) : c.settled.rest ⊆ placed := by
  unfold Cursor.settled
  split
  · exact fun t mem => within ((List.dropWhile_suffix _).subset mem)
  · exact within

theorem within_behind {c : Cursor} (within : c.rest ⊆ placed) : c.behind.rest ⊆ placed := by
  unfold Cursor.behind
  split
  · rename_i shape
    exact fun t mem => within (shape ▸ List.mem_cons_of_mem _ mem)
  · exact within

theorem here : Looks placed here names fun _ => True := by
  intro c t c' within shown ran
  cases ran
  exact ⟨within, [], ⟨shown, rfl, trivial⟩, rfl⟩

theorem peek : Looks placed peek names fun _ => True := by
  intro c t c' within shown ran
  rw [peek_eq] at ran
  cases ran
  exact ⟨within_settled within, [], ⟨c.names_settled.trans shown, rfl, trivial⟩, rfl⟩

theorem advance : Looks placed advance names fun t => ∀ name, t.token = .name name →
    t ∈ placed := by
  intro c t c' within shown ran
  rw [advance_eq] at ran
  cases ran
  refine ⟨within_behind (within_settled within), [], ⟨?_, rfl, fun name => ?_⟩, rfl⟩
  · exact (c.settled.names_behind.trans c.names_settled).trans shown
  · exact mem_of_next (within_settled within)

theorem check (mark : Symbol) : Looks placed (check mark) names fun _ => True := by
  refine peek.andThen fun t _ => ?_
  split <;> exact pure ⟨rfl, rfl, trivial⟩

theorem expect (mark : Symbol) (what : String) :
    Looks placed (expect mark what) names fun _ => True := by
  refine (check mark).andThen fun found _ => ?_
  split
  · exact advance.andThen fun _ _ => pure ⟨rfl, rfl, trivial⟩
  · exact of_fails (.after (fun _ => fails_complain _) _)

theorem remaining : Looks placed remaining names fun _ => True := by
  intro c n c' within shown ran
  cases ran
  exact ⟨within, [], ⟨shown, rfl, trivial⟩, rfl⟩

/-- To open or close brackets is to leave the names as they are. -/
theorem rebracketed (count : Cursor → Nat) :
    Checks placed (modify fun c => { c with brackets := count c } : Parser PUnit)
      (modify fun c => { c with brackets := count c }) names
      fun _ names' missed => names' = names ∧ missed = [] :=
  step id (fun _ => List.Subset.refl _) fun _ => rfl

theorem bracketed (h : Checks placed p₀ p names right) :
    Checks placed (bracketed p₀) (bracketed p) names right := by
  refine (rebracketed _).bind fun _ names' missed ⟨shown, nothing⟩ => ?_
  subst shown nothing
  refine h.bind fun a names' missed gives => ?_
  refine (rebracketed _).bind fun _ names'' more ⟨shown, nothing⟩ => ?_
  subst shown nothing
  exact pure (by simpa using gives)

/-! ### Names -/

theorem define (name : String) : Checks placed (define name) (define name) names
    fun _ names' missed => names' = names.modifyHead (name :: ·) ∧ missed = [] := by
  refine step _ (fun c => ?_) fun c => ?_
  · split <;> exact List.Subset.refl _
  · split <;> rename_i shape <;> rw [shape] <;> rfl

theorem body (opened : names ≠ []) (inside : α → List String → Prop)
    (h : Checks placed p₀ p ([] :: names) fun a names' missed =>
      (∃ inner, names' = inner :: names) ∧ inside a missed) :
    Checks placed (body p₀) (body p) names fun a names' missed => names' = names ∧
    inside a missed := by
  refine bind (step ([] :: ·) (fun _ => List.Subset.refl _) fun _ => rfl)
    fun _ names' missed ⟨shown, nothing⟩ => ?_
  subst shown nothing
  refine h.bind fun a names' missed ⟨⟨inner, shown⟩, gives⟩ => ?_
  subst shown
  refine bind (step leave (fun _ => List.Subset.refl _) fun _ => rfl)
    fun _ names' more ⟨shown, nothing⟩ => ?_
  subst nothing
  rw [shown, leave_cons inner opened]
  exact pure ⟨rfl, by simpa using gives⟩

variable {ctx₀ ctx : Context}

/-- The root of a path is missed unless it is in view. -/
theorem requireRoot {path : Path} {place : Position} (mem : ⟨.name path.root, place⟩ ∈ placed) :
    Checks placed (requireRoot ctx₀ path place) (requireRoot ctx path place) names
      fun _ names' missed => names' = names ∧ missed = ctx.unseen names path.root := by
  intro c a c' within shown ran
  have kept : c' = c := by
    rw [Parser.requireRoot] at ran
    obtain ⟨seen, c₁, looked, ran⟩ := ok_of_bind ran
    cases looked
    split at ran
    · cases ran
      rfl
    · cases ran
  subst kept
  refine ⟨within, _, ⟨shown, rfl⟩, ?_⟩
  have looks : Parser.requireRoot ctx path place c' =
      if (c'.names.any (·.contains path.root) || ctx.isBound path.root) = true then .ok ((), c')
      else .error (.unknownName place path.root) := by
    have seen : Parser.sees ctx path.root c' =
      .ok (c'.names.any (·.contains path.root) || ctx.isBound path.root, c') := rfl
    rw [Parser.requireRoot, bind_of_ok seen]
    split <;> rfl
  rw [looks, shown, Context.unseen]
  split
  · rfl
  · exact ⟨place, mem, rfl⟩

theorem reference {path : Path} {place : Position} (mem : ⟨.name path.root, place⟩ ∈ placed) :
    Checks placed (reference ctx₀ path place) (reference ctx path place) names
      fun t names' missed =>
      names' = names ∧ t = .reference path ∧ missed = ctx.unseen names path.root :=
  (requireRoot mem).bind fun _ names' missed ⟨shown, looked⟩ =>
    pure ⟨shown, rfl, by rw [List.append_nil, looked]⟩

/-- Where no types are registered, every call is a call of what its path names. -/
theorem call (bare₀ : ∀ name, ctx₀.registry.contains name = false)
    (bare : ∀ name, ctx.registry.contains name = false) {path : Path} {place : Position}
    (args : List Tree) (mem : ⟨.name path.root, place⟩ ∈ placed) :
    Checks placed (call ctx₀ path args place) (call ctx path args place) names
      fun t names' missed =>
      names' = names ∧ t = .invoke path args ∧ missed = ctx.unseen names path.root := by
  have invoked : ∀ {ctx : Context}, (∀ name, ctx.registry.contains name = false) →
      Parser.call ctx path args place =
      (do Parser.requireRoot ctx path place; return .invoke path args) := by
    intro ctx bare
    funext c
    have seen : Parser.sees ctx path.root c =
      .ok (c.names.any (·.contains path.root) || ctx.isBound path.root, c) := rfl
    rw [Parser.call, bind_of_ok seen, bare, Bool.and_false]
    rfl
  rw [invoked bare₀, invoked bare]
  exact (requireRoot mem).bind fun _ names' missed known =>
    pure ⟨known.1, rfl, by rw [List.append_nil, known.2]⟩

end Checks

end Script

end PeerScript
