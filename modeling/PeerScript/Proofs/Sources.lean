import PeerScript.Proofs.Translation.Terms

/-!
# What a text is read as

A script is checked before it runs: every name that it looks up is in view, or it does not become a
tree.  What this comes to for the tree is `parse_settles`: a name that the tree looks up when it
runs, other than the parameters of its functions, was bound outside or is bound somewhere in the
tree.  Which of these bindings will have been made by then, the reader cannot tell.

A tree that has been read is also a `IsSource`: what it calls has a name, and no builtin or object
stands in it as a literal.  Both are shown by one walk through the readers of the two languages,
whichever types are registered.
-/

set_option autoImplicit false

namespace PeerScript

open Script (Context)

/-- What is decoded is an instance. -/
theorem Registry.handle_of_decode {r : Registry} {name : String} {values : List Value}
    {serial : Nat} {v : Value} (decoded : r.decode name values serial = .ok v) :
    ∃ kind fields, v = .handle kind serial fields := by
  unfold Registry.decode at decoded
  split at decoded
  · exact nomatch decoded
  · split at decoded
    · cases decoded
      exact ⟨_, _, rfl⟩
    · exact nomatch decoded

/-! ## The names that a tree looks up -/

/-- The name that a head looks up. -/
def Head.calls : Head → List String
  | .invoke path => [path.root]
  | _ => []

/-- Whether a head calls something that has a name. -/
def Head.IsSource : Head → Prop
  | .invoke path => path.segments ≠ []
  | _ => True

mutual

/-- The names that a function looks up, its parameters apart.  What is not called looks up
nothing. -/
def Value.free : Value → List String
  | .closure params body _ => body.free.filter (· ∉ params)
  | _ => []

/-- The names that a tree looks up, or the functions that it makes when they are called. -/
def Tree.free : Tree → List String
  | .literal v => v.free
  | .reference path => [path.root]
  | .call head args => head.calls ++ Tree.freeAll args

/-- The names that trees look up. -/
def Tree.freeAll : List Tree → List String
  | [] => []
  | t :: rest => t.free ++ Tree.freeAll rest

end

mutual

/-- Whether a value can stand in a script. -/
def Value.IsSource : Value → Prop
  | .closure _ body _ => body.IsSource
  | .native _ | .object _ => False
  | _ => True

/-- Whether a tree can be that of a script: what it looks up has a name, and its literals are
plain. -/
def Tree.IsSource : Tree → Prop
  | .literal v => v.IsSource
  | .reference path => path.segments ≠ []
  | .call head args => head.IsSource ∧ Tree.AreSource args

/-- Whether trees can be those of scripts. -/
def Tree.AreSource : List Tree → Prop
  | [] => True
  | t :: rest => t.IsSource ∧ Tree.AreSource rest

end

mutual

/-- What a tree binds in its scope is bound somewhere in it. -/
theorem Tree.binds_subset_defines : ∀ t : Tree, t.binds ⊆ t.defines
  | .literal _ | .reference _ => List.nil_subset _
  | .call head args => by
      rw [Tree.binds, Tree.defines]
      apply List.append_subset.mpr
      constructor
      · exact List.subset_append_of_subset_right _ (Tree.bindsAll_subset_definesAll args)
      · exact List.subset_append_left _ _
termination_by structural t => t

theorem Tree.bindsAll_subset_definesAll : ∀ ts : List Tree, Tree.bindsAll ts ⊆ Tree.definesAll ts
  | [] => List.nil_subset _
  | t :: rest => by
      rw [Tree.bindsAll, Tree.definesAll]
      apply List.append_subset.mpr
      constructor
      · exact List.subset_append_of_subset_right _ (Tree.bindsAll_subset_definesAll rest)
      · exact List.subset_append_of_subset_left _ (Tree.binds_subset_defines t)
termination_by structural ts => ts

end

theorem Script.Context.Sees.of_modifyHead {ctx : Context} {names : List (List String)}
    {ns : List String} {name : String} (seen : ctx.Sees (names.modifyHead (ns ++ ·)) name) :
    ctx.Sees names name ∨ name ∈ ns := by
  cases names with
  | nil => exact .inl seen
  | cons innermost outer =>
      simp only [Sees, List.modifyHead_cons, List.any_cons, List.contains_append,
        Bool.or_eq_true, List.contains_iff_mem] at seen ⊢
      tauto

/-! ## Trees that settle their names -/

/-- A tree has been read with some names in view, and others are in view behind it. -/
structure Tree.Settles (ctx : Context) (names : List (List String)) (t : Tree)
    (names' : List (List String)) : Prop where
  source : t.IsSource
  free : ∀ name ∈ t.free, ctx.Sees names name ∨ name ∈ t.defines
  names : names' = names.modifyHead (t.binds ++ ·)

/-- Trees have been read one after another. -/
structure Tree.AllSettle (ctx : Context) (names : List (List String)) (ts : List Tree)
    (names' : List (List String)) : Prop where
  source : Tree.AreSource ts
  free : ∀ name ∈ Tree.freeAll ts, ctx.Sees names name ∨ name ∈ Tree.definesAll ts
  names : names' = names.modifyHead (Tree.bindsAll ts ++ ·)

namespace Tree

variable {ctx : Context} {names names₁ names₂ : List (List String)} {t u : Tree} {ts : List Tree}

theorem bindsAll_literals (vs : List Value) : bindsAll (vs.map .literal) = [] := by
  induction vs with
  | nil => rfl
  | cons v vs ih => rw [List.map_cons, bindsAll, ih, binds_literal, List.append_nil]

theorem allSettle_nil : AllSettle ctx names [] names where
  source := by rw [AreSource]; trivial
  free := nofun
  names := (modifyHead_nil_append names).symm

theorem Settles.cons (first : t.Settles ctx names names₁) (rest : AllSettle ctx names₁ ts names₂) :
    AllSettle ctx names (t :: ts) names₂ where
  source := by
    rw [AreSource]
    exact ⟨first.source, rest.source⟩
  free name mem := by
    rw [definesAll, List.mem_append]
    rw [freeAll, List.mem_append] at mem
    rcases mem with mem | mem
    · exact (first.free name mem).imp_right .inl
    · rcases rest.free name mem with seen | defined
      · rw [first.names] at seen
        exact seen.of_modifyHead.imp_right fun bound => .inl (t.binds_subset_defines bound)
      · exact .inr (.inr defined)
  names := by rw [rest.names, first.names, bindsAll, modifyHead_append]

theorem Settles.single (h : t.Settles ctx names names₁) : AllSettle ctx names [t] names₁ :=
  h.cons allSettle_nil

theorem Settles.opened (h : t.Settles ctx names names₁) (opened : names ≠ []) : names₁ ≠ [] := by
  rw [h.names]
  simpa using opened

theorem AllSettle.opened (h : AllSettle ctx names ts names₁) (opened : names ≠ []) :
    names₁ ≠ [] := by
  rw [h.names]
  simpa using opened

theorem settles_literal {v : Value} (source : v.IsSource) (free : v.free = []) :
    (Tree.literal v).Settles ctx names names where
  source := by rw [IsSource]; exact source
  free name mem := by
    rw [Tree.free, free] at mem
    exact nomatch mem
  names := (modifyHead_nil_append names).symm

theorem settles_reference {path : Path} (named : path.segments ≠ [])
    (seen : ctx.Sees names path.root) :
    (Tree.reference path).Settles ctx names names where
  source := by rw [IsSource]; exact named
  free name mem := by
    rw [Tree.free, List.mem_singleton] at mem
    exact .inl (mem ▸ seen)
  names := (modifyHead_nil_append names).symm

namespace AllSettle

variable (h : AllSettle ctx names ts names₁)

include h

/-- What is applied is looked up behind its arguments. -/
theorem call {head : Head} (source : head.IsSource) (binds : head.binds = [])
    (seen : ∀ name ∈ head.calls, ctx.Sees names₁ name) :
    (Tree.call head ts).Settles ctx names names₁ where
  source := by
    rw [IsSource]
    exact ⟨source, h.source⟩
  free name mem := by
    rw [defines, binds, List.nil_append]
    rw [Tree.free, List.mem_append] at mem
    rcases mem with mem | mem
    · have seen := seen name mem
      rw [h.names] at seen
      exact seen.of_modifyHead.imp_right fun bound => bindsAll_subset_definesAll ts bound
    · exact h.free name mem
  names := by
    rw [Tree.binds, binds, List.append_nil]
    exact h.names

theorem list : (Script.Parser.list ts).Settles ctx names names₁ := by
  unfold Script.Parser.list
  split
  · rename_i vs all
    obtain rfl := literals_of_mapM all
    have same := h.names
    rw [bindsAll_literals, modifyHead_nil_append] at same
    subst same
    exact settles_literal (by simp only [Value.IsSource]) (by simp only [Value.free])
  · exact h.call trivial rfl nofun

end AllSettle

theorem settles_bind {name : String} (h : t.Settles ctx (names.modifyHead (name :: ·)) names₁) :
    (Tree.bind name t).Settles ctx names names₁ where
  source := by
    rw [Tree.bind, IsSource]
    exact ⟨trivial, h.single.source⟩
  free other mem := by
    rw [Tree.bind, defines, List.mem_append]
    rcases h.single.free other mem with seen | defined
    · have seen : ctx.Sees (names.modifyHead ([name] ++ ·)) other := seen
      exact seen.of_modifyHead.imp_right .inl
    · exact .inr (.inr defined)
  names := by
    rw [h.names, Tree.bind, binds, bindsAll, bindsAll, List.nil_append]
    exact modifyHead_append [name] t.binds names

/-- A function, whose parameters are in view in its body only. -/
theorem AllSettle.closure {params : List String}
    (body : AllSettle ctx (params.reverse :: names) ts names₁) :
    (Tree.literal (.closure params (.sequence ts) none)).Settles ctx names names where
  source := by
    rw [IsSource, Value.IsSource, Tree.sequence, IsSource]
    exact ⟨trivial, body.source⟩
  free name mem := by
    rw [Tree.free, Value.free, Tree.sequence, Tree.free, List.mem_filter] at mem
    obtain ⟨mem, other⟩ := mem
    rw [defines, Value.defines, Tree.sequence, defines]
    rcases body.free name mem with seen | defined
    · refine .inl ?_
      simp only [Script.Context.Sees, List.any_cons, Bool.or_eq_true, List.contains_iff_mem,
        List.mem_reverse] at seen ⊢
      have other : name ∉ params := of_decide_eq_true other
      tauto
    · exact .inr defined
  names := (modifyHead_nil_append names).symm

theorem Settles.negated (h : t.Settles ctx names names₁) :
    (Script.Rho.negated t).Settles ctx names names₁ := by
  have flat : ∀ {v : Value}, t = .literal v → names₁ = names := by
    rintro v rfl
    rw [h.names, binds_literal, modifyHead_nil_append]
  unfold Script.Rho.negated
  split
  · rw [flat rfl]
    exact settles_literal (by simp only [Value.IsSource]) (by simp only [Value.free])
  · rw [flat rfl]
    exact settles_literal (by simp only [Value.IsSource]) (by simp only [Value.free])
  · exact h.single.call trivial rfl nofun

end Tree

/-! ## Readers -/

namespace Script

open Script.Parser

/-- With the given names in view, a parser returns only what is right for the names that are in view
behind it.  No number of an instance is given out twice. -/
def Yields {α : Type} (p : Parser α) (names : List (List String))
    (right : α → List (List String) → Prop) : Prop :=
  ∀ ⦃c a c'⦄, c.names = names → p c = .ok (a, c') → c.serial ≤ c'.serial ∧ right a c'.names

/-- A tree is read that settles its names. -/
abbrev Settling (ctx : Context) (p : Parser Tree) : Prop :=
  ∀ names, names ≠ [] → Yields p names (Tree.Settles ctx names)

/-- Trees are read that settle their names. -/
abbrev AllSettling (ctx : Context) (p : Parser (List Tree)) : Prop :=
  ∀ names, names ≠ [] → Yields p names (Tree.AllSettle ctx names)

theorem Gives.yields {α : Type} {p : Parser α} {names : List (List String)}
    {right : α → List (List String) → Prop} (h : Gives (fun _ => True) p names right) :
    Yields p names right := by
  intro c a c' shown ran
  obtain ⟨-, serial, gives⟩ := h ⟨trivial, fun _ _ => trivial⟩ shown ran
  exact ⟨Nat.le_of_eq serial.symm, gives⟩

namespace Yields

variable {α β : Type} {p : Parser α} {f : α → Parser β} {names : List (List String)}
  {right : α → List (List String) → Prop} {right₂ : β → List (List String) → Prop}

theorem pure {a : α} (gives : right a names) : Yields (Pure.pure a) names right := by
  intro c b c' shown ran
  cases ran
  exact ⟨Nat.le_refl _, shown ▸ gives⟩

theorem bind (first : Yields p names right)
    (next : ∀ a names', right a names' → Yields (f a) names' right₂) :
    Yields (p >>= f) names right₂ := by
  intro c b c' shown ran
  obtain ⟨a, c₁, ran₁, ran₂⟩ := ok_of_bind ran
  obtain ⟨le, gives⟩ := first shown ran₁
  obtain ⟨le', gives'⟩ := next a _ gives rfl ran₂
  exact ⟨Nat.le_trans le le', gives'⟩

/-- What depends on the whole cursor. -/
theorem look {f : Cursor → Parser β}
    (h : ∀ ⦃c b c'⦄, c.names = names → f c c = .ok (b, c') → c.serial ≤ c'.serial ∧
      right₂ b c'.names) :
    Yields (get >>= f) names right₂ := h

/-- Behind a parser that leaves the names as they are. -/
theorem after {right : α → Prop} (first : Keeps (fun _ => True) p names right)
    (next : ∀ a, Yields (f a) names right₂) : Yields (p >>= f) names right₂ :=
  first.yields.bind fun a _ ⟨same, _⟩ => same ▸ next a

theorem of_fails (fails : p.Fails) : Yields p names right :=
  fun _ _ _ _ ran => absurd ran (fails _ _)

theorem bracketed (h : Yields p names right) : Yields (bracketed p) names right := by
  refine (Gives.rebracketed _).yields.bind fun _ _ shown => ?_
  rw [shown]
  refine h.bind fun a names' gives => (Gives.rebracketed _).yields.bind fun _ _ shown => ?_
  rw [shown]
  exact pure gives

/-- A body is read with no names of its own, and those that it gets go out of view behind it. -/
theorem body {ctx : Context} {p : Parser Tree} (opened : names ≠ [])
    (h : Yields p ([] :: names) fun t names' =>
      (∃ inner, names' = inner :: names) ∧ t.Settles ctx names names) :
    Yields (body p) names (Tree.Settles ctx names) := by
  intro c t c' shown ran
  obtain ⟨_, c₁, ran₁, ran₂⟩ := ok_of_bind ran
  cases ran₁
  obtain ⟨_, c₂, ran₂, ran₃⟩ := ok_of_bind ran₂
  have opened' : [] :: c.names = [] :: names := by rw [shown]
  obtain ⟨le, ⟨inner, same⟩, settled⟩ := h opened' ran₂
  obtain ⟨_, c₃, ran₃, ran₄⟩ := ok_of_bind ran₃
  cases ran₃
  cases ran₄
  have closed : (leave c₂.names) = names := by rw [same, leave_cons inner opened]
  exact ⟨le, closed.symm ▸ settled⟩

end Yields

/-! ### What both languages have -/

section Calls

variable {ctx : Context} {names : List (List String)} {path : Path}

theorem reference_yields (named : path.segments ≠ []) (place : Text.Position) :
    Yields (reference ctx path place) names (Tree.Settles ctx names) := by
  rw [reference]
  refine (Gives.requireRoot ctx path place).yields.bind fun _ _ known => ?_
  obtain ⟨same, seen⟩ := known
  subst same
  exact .pure (Tree.settles_reference named seen)

theorem call_yields (named : path.segments ≠ []) {names' : List (List String)} {args : List Tree}
    (settled : Tree.AllSettle ctx names args names') (place : Text.Position) :
    Yields (call ctx path args place) names' (Tree.Settles ctx names) := by
  rw [call]
  refine .after (Gives.sees ctx path.root) fun found => ?_
  split
  · split
    · rename_i fields all
      obtain rfl := literals_of_mapM all
      have same := settled.names
      rw [Tree.bindsAll_literals, modifyHead_nil_append] at same
      subst same
      refine .look fun c t c' shown ran => ?_
      cases decoded : ctx.registry.decode path.root fields c.serial with
      | ok value =>
          obtain ⟨kind, fields, rfl⟩ := Registry.handle_of_decode decoded
          rw [decoded] at ran
          cases ran
          refine ⟨Nat.le_succ _, ?_⟩
          change Tree.Settles ctx _ _ c.names
          rw [shown]
          exact Tree.settles_literal (by simp only [Value.IsSource]) (by simp only [Value.free])
      | error fault =>
          rw [decoded] at ran
          cases fault with
          | undecodable typeName reason => exact absurd ran (fails_complainAt _ _ _ _)
          | _ => cases ran
    · exact .pure (settled.call trivial rfl (List.forall_mem_nil _))
  · refine (Gives.requireRoot ctx path place).yields.bind fun _ _ known => ?_
    obtain ⟨same, seen⟩ := known
    subst same
    exact .pure (settled.call named rfl fun name mem => List.mem_singleton.mp mem ▸ seen)

end Calls

/-! ### The compact language -/

namespace Pi

theorem members_keeps {names : List (List String)} (place : Text.Position) : ∀ allowance,
    Keeps (fun _ => True) (members place allowance) names fun _ => True
  | 0 => .pure ⟨rfl, trivial⟩
  | allowance + 1 => by
      rw [members]
      refine (Gives.check .dot).andThen fun dot _ => ?_
      split
      · refine Gives.advance.andThen fun _ _ => Gives.advance.andThen fun t _ => ?_
        split
        · exact (members_keeps place allowance).andThen fun _ _ => .pure ⟨rfl, trivial⟩
        · exact .of_fails (fails_complainAt _ _)
      · exact .pure ⟨rfl, trivial⟩

theorem parameters_yields (opening : Text.Position) :
    ∀ (allowance : Nat) (names : List (List String)),
    Yields (parameters opening allowance) names fun params names' =>
      names' = names.modifyHead (params.reverse ++ ·)
  | 0, _ => .of_fails (.after (fun _ => fails_complainAt _ _) _)
  | allowance + 1, names => by
      rw [parameters]
      refine .after Gives.advance fun t => ?_
      split
      · exact .pure (modifyHead_nil_append names).symm
      · rename_i name _
        refine (Gives.define name).yields.bind fun _ names₁ shown => ?_
        refine (parameters_yields opening allowance names₁).bind fun rest names₂ right => .pure ?_
        rw [right, shown, List.reverse_cons]
        exact modifyHead_append [name] rest.reverse names
      · exact .of_fails (fails_complainAt _ _)

section Terms

variable {ctx : Context} {term : Parser Tree} (gives : Settling ctx term)

include gives

theorem termsUntil_settling (close : Symbol) (opening : Text.Position) (delimiter : String) :
    ∀ allowance, AllSettling ctx (termsUntil term close opening delimiter allowance)
  | 0, _, _ => .of_fails (fails_complainAt _ _)
  | allowance + 1, names, opened => by
      rw [termsUntil]
      refine .after (Gives.check close) fun closed => ?_
      split
      · exact .after Gives.advance fun _ => .pure Tree.allSettle_nil
      refine .after Gives.peek fun t => ?_
      split
      · exact .of_fails (fails_complainAt _ _)
      · exact (gives names opened).bind fun first names₁ settled =>
          (termsUntil_settling close opening delimiter allowance names₁
            (settled.opened opened)).bind fun rest names₂ others => .pure (settled.cons others)

theorem argsAfter_settling : ∀ allowance, AllSettling ctx (argsAfter term allowance)
  | 0, _, _ => .of_fails (.after (fun _ => fails_complain _) _)
  | allowance + 1, names, opened => by
      rw [argsAfter]
      refine (gives names opened).bind fun first names₁ settled => .after Gives.peek fun t => ?_
      split
      · exact .after Gives.advance fun _ =>
          (argsAfter_settling allowance names₁ (settled.opened opened)).bind
            fun rest names₂ others => .pure (settled.cons others)
      · exact .after Gives.advance fun _ => .pure settled.single
      · exact .of_fails (fails_complain _)

theorem args_settling : AllSettling ctx (args term) := by
  intro names opened
  rw [args]
  refine .after (Gives.expect .lParen _) fun _ => .after (Gives.check .rParen) fun closed => ?_
  split
  · exact .after Gives.advance fun _ => .pure Tree.allSettle_nil
  · exact .after Gives.remaining fun room => argsAfter_settling gives room names opened

theorem application_settling (mark : Symbol) (place : Text.Position) :
    Settling ctx (application term mark place) := by
  intro names opened
  rw [application]
  refine .after (Gives.check .lParen) fun applied => ?_
  split
  · refine (args_settling gives names opened).bind fun operands names₁ settled => ?_
    split
    · exact .pure (settled.call trivial rfl (List.forall_mem_nil _))
    · exact .of_fails (fails_complainAt _ _)
  · exact .of_fails (fails_complainAt _ _)

theorem named_settling (first : String) (place : Text.Position) :
    Settling ctx (named ctx term first place) := by
  intro names opened
  rw [named]
  refine .after Gives.remaining fun room => ?_
  refine .after (members_keeps place room) fun others => .after Gives.peek fun t => ?_
  have named : Path.segments ⟨first :: others⟩ ≠ [] := List.cons_ne_nil _ _
  split
  · refine .after Gives.advance fun _ => (Gives.define _).yields.bind fun _ names₁ shown => ?_
    subst shown
    exact (gives _ (by simpa using opened)).bind fun value names₂ settled =>
      .pure (Tree.settles_bind settled)
  · exact (args_settling gives names opened).bind fun operands names₁ settled =>
      call_yields named settled place
  · exact reference_yields named place

theorem function_settling (opening : Text.Position) : Settling ctx (function term opening) := by
  intro names opened
  rw [function]
  have goesOn : ∀ params : List String, Yields (do
      let statements ← termsUntil term .rBrace opening "\x7b" (← remaining)
      return Tree.literal (.closure params (.sequence statements) none)) (params.reverse :: names)
      fun t names' => (∃ inner, names' = inner :: names) ∧ t.Settles ctx names names := by
    intro params
    refine .after Gives.remaining fun room => ?_
    refine (termsUntil_settling gives .rBrace opening _ room _ (List.cons_ne_nil _ _)).bind
      fun statements names₁ settled => ?_
    exact .pure ⟨⟨_, settled.names⟩, settled.closure⟩
  refine .body opened (.after (Gives.check .pipe) fun bar => ?_)
  split
  · refine .after Gives.advance fun _ => .after Gives.remaining fun room => ?_
    refine (parameters_yields opening room _).bind fun params names' shown => ?_
    rw [List.modifyHead_cons, List.append_nil] at shown
    exact shown ▸ goesOn params
  · exact goesOn []

theorem termWith_settling : Settling ctx (termWith ctx term) := by
  intro names opened
  have flat : ∀ {v : Value}, v.IsSource → v.free = [] →
      Yields (pure (Tree.literal v)) names (Tree.Settles ctx names) :=
    fun source free => .pure (Tree.settles_literal source free)
  rw [termWith]
  refine .after Gives.advance fun first => ?_
  split
  · exact flat (by simp only [Value.IsSource]) (by simp only [Value.free])
  · exact flat (by simp only [Value.IsSource]) (by simp only [Value.free])
  · exact flat (by simp only [Value.IsSource]) (by simp only [Value.free])
  · exact flat (by simp only [Value.IsSource]) (by simp only [Value.free])
  · exact flat (by simp only [Value.IsSource]) (by simp only [Value.free])
  · exact named_settling gives _ _ names opened
  · refine .after Gives.peek fun t => ?_
    split
    · exact .after Gives.advance fun _ =>
        flat (by simp only [Value.IsSource]) (by simp only [Value.free])
    · exact .after Gives.advance fun _ =>
        flat (by simp only [Value.IsSource]) (by simp only [Value.free])
    · exact application_settling gives .minus _ names opened
  · exact .after Gives.remaining fun room =>
      (termsUntil_settling gives .rBracket _ _ room names opened).bind fun items names₁ settled =>
        .pure settled.list
  · exact function_settling gives _ names opened
  · split
    · exact application_settling gives _ _ names opened
    · exact .of_fails (fails_complainAt _ _)
  · exact .of_fails (fails_complainAt _ _)

theorem script_settling : ∀ allowance, AllSettling ctx (script term allowance)
  | 0, _, _ => .pure Tree.allSettle_nil
  | allowance + 1, names, opened => by
      rw [script]
      refine .after Gives.peek fun t => ?_
      split
      · exact .pure Tree.allSettle_nil
      · exact (gives names opened).bind fun first names₁ settled =>
          (script_settling allowance names₁ (settled.opened opened)).bind fun rest names₂ others =>
            .pure (settled.cons others)

end Terms

theorem term_settling (ctx : Context) : ∀ levels, Settling ctx (Pi.term ctx levels)
  | 0, _, _ => .of_fails (.after (fun _ => fails_complainAt _ _) _)
  | levels + 1, names, opened => termWith_settling (term_settling ctx levels) names opened

end Pi

/-! ### The language of statements -/

namespace Rho

theorem members_keeps {names : List (List String)} (place : Text.Position) : ∀ allowance,
    Keeps (fun _ => True) (members place allowance) names fun _ => True
  | 0 => .pure ⟨rfl, trivial⟩
  | allowance + 1 => by
      rw [members]
      refine (Gives.check .dot).andThen fun dot _ => ?_
      split
      · refine Gives.advance.andThen fun _ _ => Gives.advance.andThen fun t _ => ?_
        split
        · exact (members_keeps place allowance).andThen fun _ _ => .pure ⟨rfl, trivial⟩
        · exact .of_fails (fails_complainAt _ _)
      · exact .pure ⟨rfl, trivial⟩

theorem parameters_yields : ∀ (allowance : Nat) (names : List (List String)),
    Yields (parameters allowance) names fun params names' =>
      names' = names.modifyHead (params.reverse ++ ·)
  | 0, _ => .of_fails (.after (fun _ => fails_complain _) _)
  | allowance + 1, names => by
      rw [parameters]
      refine .after Gives.advance fun t => ?_
      split
      · exact .pure (modifyHead_nil_append names).symm
      · rename_i name _
        refine (Gives.define name).yields.bind fun _ names₁ shown => ?_
        have goesOn : Yields (do
            let rest ← parameters allowance
            return name :: rest) names₁ fun params names' =>
              names' = names.modifyHead (params.reverse ++ ·) := by
          refine (parameters_yields allowance names₁).bind fun rest names₂ right => .pure ?_
          rw [right, shown, List.reverse_cons]
          exact modifyHead_append [name] rest.reverse names
        refine .after (Gives.check .comma) fun comma => ?_
        split
        · exact .after Gives.advance fun _ => goesOn
        · exact goesOn
      · exact .of_fails (fails_complain _)

section Parts

variable {ctx : Context}

theorem nested_settling {p : Nat → Parser Tree} (gives : ∀ levels, Settling ctx (p levels)) :
    ∀ levels, Settling ctx (nested p levels)
  | 0, _, _ => .of_fails (.after (fun _ => fails_complainAt _ _) _)
  | levels + 1, names, opened => gives levels names opened

theorem expressionList_settling {expression : Parser Tree} (gives : Settling ctx expression)
    (close : Symbol) : ∀ allowance, AllSettling ctx (expressionList expression close allowance)
  | 0, _, _ => .of_fails (fails_complain _)
  | allowance + 1, names, opened => by
      rw [expressionList]
      refine .after (Gives.check close) fun closed => ?_
      split
      · exact .after Gives.advance fun _ => .pure Tree.allSettle_nil
      refine .after Gives.peek fun t => ?_
      split
      · exact .of_fails (fails_complain _)
      refine (gives names opened).bind fun first names₁ settled => ?_
      have goesOn : Yields (do
          let rest ← expressionList expression close allowance
          return first :: rest) names₁ (Tree.AllSettle ctx names) :=
        (expressionList_settling gives close allowance names₁ (settled.opened opened)).bind
          fun rest names₂ others => .pure (settled.cons others)
      refine .after (Gives.check .comma) fun comma => ?_
      split
      · exact .after Gives.advance fun _ => goesOn
      refine .after (Gives.check close) fun closed => ?_
      split
      · exact goesOn
      · exact .of_fails (.after (fun _ => .before (fails_complain _) _) _)

theorem items_settling {expression : Parser Tree} (gives : Settling ctx expression)
    (close : Symbol) :
    AllSettling ctx (bracketed (do expressionList expression close (← remaining))) :=
  fun names opened => .bracketed <| .after Gives.remaining fun room =>
    expressionList_settling gives close room names opened

theorem path_settling {expression : Parser Tree} (gives : Settling ctx expression) (first : String)
    (place : Text.Position) : Settling ctx (path ctx expression first place) := by
  intro names opened
  rw [path]
  refine .after Gives.remaining fun room => .after (members_keeps place room) fun others => ?_
  have named : Path.segments ⟨first :: others⟩ ≠ [] := List.cons_ne_nil _ _
  refine .after (Gives.check .lParen) fun applied => ?_
  split
  · exact .after Gives.advance fun _ => (items_settling gives .rParen names opened).bind
      fun args names₁ settled => call_yields named settled place
  · exact reference_yields named place

variable {statements : Closing → Parser (List Tree)}
  (body : ∀ closing, AllSettling ctx (statements closing))

include body

theorem block_yields {names : List (List String)} (opened : names ≠ []) :
    Yields (block statements) names fun t names' =>
      ∃ ts, t = .sequence ts ∧ Tree.AllSettle ctx names ts names' := by
  rw [block]
  refine .after Gives.get fun outer => (Gives.rebracketed _).yields.bind fun _ _ shown => ?_
  rw [shown]
  refine (body .brace names opened).bind fun ts names' settled => ?_
  refine .after (Gives.check .rBrace) fun closed => ?_
  split
  · refine .after Gives.advance fun _ => (Gives.rebracketed _).yields.bind fun _ _ shown => ?_
    rw [shown]
    exact .pure ⟨ts, rfl, settled⟩
  · exact .of_fails (fails_complain _)

/-- A function whose parameters are in view already. -/
theorem closure_yields {names : List (List String)} (params : List String) :
    Yields (do return Tree.literal (.closure params (← block statements) none))
      (params.reverse :: names)
      fun t names' => (∃ inner, names' = inner :: names) ∧ t.Settles ctx names names := by
  refine (block_yields body (List.cons_ne_nil _ _)).bind fun t names' right => ?_
  obtain ⟨ts, rfl, settled⟩ := right
  exact .pure ⟨⟨_, settled.names⟩, settled.closure⟩

theorem function_settling : Settling ctx (function statements) := by
  intro names opened
  rw [function]
  refine .after (Gives.expect .lParen _) fun _ => ?_
  refine .body opened ?_
  have params : Yields (do parameters (← remaining)) ([] :: names) fun params names' =>
      names' = ([] :: names).modifyHead (params.reverse ++ ·) :=
    .after Gives.remaining fun room => parameters_yields room _
  refine params.bracketed.bind fun params names' shown => ?_
  rw [List.modifyHead_cons, List.append_nil] at shown
  subst shown
  exact .after (Gives.expect .lBrace _) fun _ => closure_yields body params

end Parts

/-- Readers that settle the names of what they read. -/
structure Inner.Settles (ctx : Context) (inner : Inner) : Prop where
  expression : ∀ levels, Settling ctx (inner.expression levels)
  unary : ∀ levels, Settling ctx (inner.unary levels)
  statements : ∀ levels closing, AllSettling ctx (inner.statements levels closing)

theorem chain_yields {ctx : Context} (operators : List (Symbol × Operator)) {operand : Parser Tree}
    (gives : Settling ctx operand) {names : List (List String)} (opened : names ≠ []) :
    ∀ (allowance : Nat) (left : Tree) (names₁ : List (List String)), left.Settles ctx names names₁ →
      Yields (chain operators operand allowance left) names₁ (Tree.Settles ctx names)
  | 0, left, _, settled => .pure settled
  | allowance + 1, left, names₁, settled => by
      rw [chain]
      refine .after Gives.peek fun t => ?_
      split
      · exact .pure settled
      · rename_i operator _
        refine .after Gives.advance fun _ => ?_
        refine (gives names₁ (settled.opened opened)).bind fun right names₂ other => ?_
        have whole : (Tree.op operator [left, right]).Settles ctx names names₂ :=
          (settled.cons other.single).call trivial rfl (List.forall_mem_nil _)
        exact chain_yields operators gives opened allowance _ names₂ whole

theorem binary_settling {ctx : Context} {operand : Parser Tree} (gives : Settling ctx operand) :
    ∀ levels, Settling ctx (binary operand levels)
  | [], names, opened => gives names opened
  | operators :: tighter, names, opened => by
      have inner := binary_settling gives tighter
      rw [binary]
      exact (inner names opened).bind fun first names₁ settled => .after Gives.remaining fun room =>
        chain_yields operators inner opened room first names₁ settled

section Storey

variable {ctx : Context} {inner : Inner} (gives : inner.Settles ctx) (levels : Nat)

include gives

theorem primary_settling : Settling ctx (primary ctx inner levels) := by
  intro names opened
  have flat : ∀ {v : Value}, v.IsSource → v.free = [] →
      Yields (pure (Tree.literal v)) names (Tree.Settles ctx names) :=
    fun source free => .pure (Tree.settles_literal source free)
  rw [primary]
  refine .after Gives.advance fun first => ?_
  split
  · exact flat (by simp only [Value.IsSource]) (by simp only [Value.free])
  · exact flat (by simp only [Value.IsSource]) (by simp only [Value.free])
  · exact flat (by simp only [Value.IsSource]) (by simp only [Value.free])
  · exact flat (by simp only [Value.IsSource]) (by simp only [Value.free])
  · exact flat (by simp only [Value.IsSource]) (by simp only [Value.free])
  · split
    · exact function_settling (gives.statements levels) names opened
    · exact path_settling (gives.expression levels) _ _ names opened
  · exact .bracketed <| (gives.expression levels names opened).bind fun t names₁ settled =>
      .after (Gives.expect .rParen _) fun _ => .pure settled
  · exact (items_settling (gives.expression levels) .rBracket names opened).bind
      fun items names₁ settled => .pure settled.list
  · exact .body opened (closure_yields (gives.statements levels) [])
  · exact .of_fails (fails_complainAt _ _)

theorem unary_settling : Settling ctx (unary ctx inner levels) := by
  intro names opened
  have operand := nested_settling gives.unary levels names opened
  rw [unary]
  refine .after Gives.peek fun t => ?_
  split
  · exact .after Gives.advance fun _ => operand.bind fun t names₁ settled =>
      .pure (settled.single.call trivial rfl (List.forall_mem_nil _))
  · exact .after Gives.advance fun _ => operand.bind fun t names₁ settled => .pure settled.negated
  · exact primary_settling gives levels names opened

theorem expression_settling : Settling ctx (expression ctx inner levels) :=
  nested_settling (fun levels => binary_settling (unary_settling gives levels) precedence) levels

theorem statement_settling : Settling ctx (statement ctx inner levels) := by
  intro names opened
  have binding : ∀ (name : String) {value : Parser Tree}, Settling ctx value →
      Yields (do define name; return .bind name (← value)) names (Tree.Settles ctx names) := by
    intro name value reads
    refine (Gives.define name).yields.bind fun _ names₁ shown => ?_
    subst shown
    exact (reads _ (by simpa using opened)).bind fun t names₂ settled =>
      .pure (Tree.settles_bind settled)
  rw [statement]
  refine .after Gives.get fun c => .after Gives.peek fun t => ?_
  split
  · split
    · exact .after Gives.advance fun _ => .after Gives.advance fun _ =>
        binding _ (function_settling (gives.statements levels))
    · exact expression_settling gives levels names opened
  · exact .after Gives.advance fun _ => .after Gives.advance fun _ =>
      binding _ (expression_settling gives levels)
  · exact expression_settling gives levels names opened

end Storey

theorem statementsWith_settling {ctx : Context} {statement : Parser Tree} (closing : Closing)
    (gives : Settling ctx statement) :
    ∀ allowance, AllSettling ctx (statementsWith statement closing allowance)
  | 0, _, _ => .pure Tree.allSettle_nil
  | allowance + 1, names, opened => by
      rw [statementsWith]
      have passed : Gives (fun _ => True)
          (modify fun c => { c with rest := c.rest.dropWhile separates } : Parser PUnit) names
          fun _ names' => names' = names :=
        .step id (fun _ _ => ⟨trivial, fun _ _ => trivial⟩) (fun _ => rfl) fun _ => rfl
      refine passed.yields.bind fun _ _ shown => ?_
      rw [shown]
      refine .after Gives.here fun next => ?_
      split
      · exact .pure Tree.allSettle_nil
      refine (gives names opened).bind fun first names₁ settled =>
        .after Gives.here fun behind => ?_
      split
      · exact (statementsWith_settling closing gives allowance names₁ (settled.opened opened)).bind
          fun rest names₂ others => .pure (settled.cons others)
      · exact .of_fails (fails_complain _)

theorem tower_settles (ctx : Context) : ∀ height, (tower ctx height).Settles ctx
  | 0 => ⟨fun _ _ _ => .of_fails (fails_complain _), fun _ _ _ => .of_fails (fails_complain _),
      fun _ _ _ _ => .of_fails (fails_complain _)⟩
  | height + 1 =>
      have gives := tower_settles ctx height
      ⟨expression_settling gives, unary_settling gives, fun levels closing _ opened =>
        .after Gives.remaining fun room =>
          statementsWith_settling closing (statement_settling gives levels) room _ opened⟩

end Rho

/-- A script is read as a sequence of trees that settle their names, and it leaves the numbers of
its instances behind. -/
theorem sequence_of_parse_settles {language : Language} {ctx : Context} {source : String}
    {serial next : Nat} {t : Tree} (parsed : parse language ctx source serial = .ok (t, next)) :
    serial ≤ next ∧ ∃ ts names, t = .sequence ts ∧ Tree.AllSettle ctx [[]] ts names := by
  have opened : ([[]] : List (List String)) ≠ [] := List.cons_ne_nil _ _
  unfold parse at parsed
  split at parsed
  · cases parsed
  rename_i placed _
  cases language with
  | rho =>
      rw [Rho.parse] at parsed
      dsimp only at parsed
      have gives :=
        (Rho.tower_settles ctx (placed.length + 1)).statements nestingLimit .finish [[]] opened
      cases read : (Rho.tower ctx (placed.length + 1)).statements nestingLimit .finish
          ⟨placed, 0, [[]], serial⟩ with
      | error fault =>
          rw [read] at parsed
          cases parsed
      | ok r =>
          rw [read] at parsed
          cases parsed
          obtain ⟨le, settled⟩ := gives rfl read
          exact ⟨le, _, _, rfl, settled⟩
  | pi =>
      rw [Pi.parse] at parsed
      dsimp only at parsed
      have gives := Pi.script_settling (Pi.term_settling ctx nestingLimit)
        (placed.filter Pi.counts).length [[]] opened
      cases read : Pi.script (Pi.term ctx nestingLimit) (placed.filter Pi.counts).length
          ⟨placed.filter Pi.counts, 0, [[]], serial⟩ with
      | error fault =>
          rw [read] at parsed
          cases parsed
      | ok r =>
          rw [read] at parsed
          cases parsed
          obtain ⟨le, settled⟩ := gives rfl read
          exact ⟨le, _, _, rfl, settled⟩

/-- A script that has been read looks up no names, its parameters apart, but those that are bound
outside and those that it binds somewhere. -/
theorem parse_settles {language : Language} {ctx : Context} {source : String} {serial next : Nat}
    {t : Tree} (parsed : parse language ctx source serial = .ok (t, next)) :
    t.IsSource ∧ ∀ name ∈ t.free, ctx.isBound name = true ∨ name ∈ t.defines := by
  obtain ⟨-, ts, names, rfl, settled⟩ := sequence_of_parse_settles parsed
  have sequence : (Tree.sequence ts).Settles ctx [[]] names :=
    settled.call trivial rfl (List.forall_mem_nil _)
  exact ⟨sequence.source, fun name mem => (sequence.free name mem).imp_left id⟩

end Script

end PeerScript
