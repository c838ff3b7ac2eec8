import PeerScript.Proofs.Alike.Machines
import PeerScript.Proofs.Alike.Operators
import PeerScript.Proofs.Contents

/-!
# Runs that look alike

A run does the same on two machines that look alike: it ends in the same way, with results that are
related, and leaves machines that look alike.  Frames and instances made on the way are paired.  No
object is ever reached, because no value that is alike to another is one; so the two machines may
even have different objects.
-/

set_option autoImplicit false

namespace PeerScript

variable {σ α β : Type} {hidden : String → Prop} {root : FrameId}

/-- The same end, with related results and with machines that look alike. -/
inductive Ends (w : Sides σ hidden root) (at_ : Places)
    (R : Pairing → Machine σ → Machine σ → α → α → Prop) (p : Pairing) :
    EStateM.Result Stop (Machine σ) α → EStateM.Result Stop (Machine σ) α → Prop
  | ok {q : Pairing} {a b : α} {m m' : Machine σ} :
      p ≤ q → Machines w at_ q m m' → R q m m' a b → Ends w at_ R p (.ok a m) (.ok b m')
  | error {q : Pairing} (stop : Stop) {m m' : Machine σ} :
      p ≤ q → Machines w at_ q m m' → Ends w at_ R p (.error stop m) (.error stop m')

/-- The results are the same. -/
abbrev Equal : Pairing → Machine σ → Machine σ → α → α → Prop := fun _ _ _ a b => a = b

/-- The results look alike, and nothing else has happened. -/
abbrev Still (m m' : Machine σ) (R : Pairing → α → α → Prop) :
    Pairing → Machine σ → Machine σ → α → α → Prop :=
  fun q n n' a b => (m = n ∧ m' = n') ∧ R q a b

/-- A value that looks alike, or none. -/
abbrev Pushed (hidden : String → Prop) :
    Pairing → Machine σ → Machine σ → Option Value → Option Value → Prop :=
  fun q n n' => Option.Rel (InHand hidden q n n')

variable {w : Sides σ hidden root} {at_ : Places} {p : Pairing} {m m' : Machine σ}
  {R : Pairing → Machine σ → Machine σ → α → α → Prop}
  {S : Pairing → Machine σ → Machine σ → β → β → Prop}

namespace Ends

theorem weaken {q : Pairing} (le : p ≤ q) {x y : EStateM.Result Stop (Machine σ) α}
    (h : Ends w at_ R q x y) : Ends w at_ R p x y := by
  cases h with
  | ok le' machines related => exact .ok (p.le_trans le le') machines related
  | error stop le' machines => exact .error stop (p.le_trans le le') machines

theorem bind {r r' : Run σ α} {f f' : α → Run σ β} (first : Ends w at_ R p (r m) (r' m'))
    (next : ∀ q, p ≤ q → ∀ n n' a b, Machines w at_ q n n' → R q n n' a b →
      Ends w at_ S q (f a n) (f' b n')) : Ends w at_ S p ((r >>= f) m) ((r' >>= f') m') := by
  change Ends w at_ S p (EStateM.bind r f m) (EStateM.bind r' f' m')
  unfold EStateM.bind
  generalize r m = x, r' m' = y at first ⊢
  cases first with
  | ok le machines related => exact (next _ le _ _ _ _ machines related).weaken le
  | error stop le machines => exact .error stop le machines

variable (machines : Machines w at_ p m m')

include machines

theorem pure {a b : α} (related : R p m m' a b) :
    Ends w at_ R p ((Pure.pure a : Run σ α) m) ((Pure.pure b : Run σ α) m') :=
  .ok p.le_refl machines related

theorem throw (stop : Stop) :
    Ends w at_ R p ((MonadExcept.throw stop : Run σ α) m) ((MonadExcept.throw stop : Run σ α) m') :=
  .error stop p.le_refl machines

theorem fail (fault : Fault) : Ends w at_ R p (Run.fail fault m) (Run.fail fault m') :=
  throw machines _

theorem get : Ends w at_ (fun _ n n' a b => (m = n ∧ m' = n') ∧ m = a ∧ m' = b) p
    ((MonadState.get : Run σ (Machine σ)) m) ((MonadState.get : Run σ (Machine σ)) m') :=
  .ok p.le_refl machines ⟨⟨rfl, rfl⟩, rfl, rfl⟩

theorem push {v v' : Value} (fits : InHand hidden p m m' v v') :
    Ends w at_ Equal p (Run.push v m) (Run.push v' m') := .ok p.le_refl (machines.push fits) rfl

end Ends

/-! ## Lists of values -/

section Lists

variable {vs ws : List Value} (h : Value.AllAlike hidden p vs ws)

include h

theorem Value.AllAlike.reverse : Value.AllAlike hidden p vs.reverse ws.reverse :=
  Value.allAlike_iff.mpr (List.rel_reverse (Value.allAlike_iff.mp h))

theorem Value.AllAlike.take (n : Nat) : Value.AllAlike hidden p (vs.take n) (ws.take n) :=
  Value.allAlike_iff.mpr (List.forall₂_take n (Value.allAlike_iff.mp h))

theorem Value.AllAlike.drop (n : Nat) : Value.AllAlike hidden p (vs.drop n) (ws.drop n) :=
  Value.allAlike_iff.mpr (List.forall₂_drop n (Value.allAlike_iff.mp h))

theorem Value.AllAlike.dropLast : Value.AllAlike hidden p vs.dropLast ws.dropLast := by
  rw [List.dropLast_eq_take, List.dropLast_eq_take, h.length_eq]
  exact h.take _

theorem Value.AllAlike.getLast? : Option.Rel (Value.Alike hidden p) vs.getLast? ws.getLast? := by
  have turned := h.reverse
  rw [← List.head?_reverse, ← List.head?_reverse]
  generalize vs.reverse = vs', ws.reverse = ws' at turned ⊢
  cases turned with
  | nil => exact .none
  | cons first _ => exact .some first

theorem Value.AllAlike.isEmpty_eq : vs.isEmpty = ws.isEmpty := by
  cases h <;> rfl

theorem Value.AllAlike.truthy_eq : vs.all Value.truthy = ws.all Value.truthy := by
  induction vs generalizing ws with
  | nil =>
      cases h
      rfl
  | cons v vs ih =>
      cases h with
      | cons first rest => rw [List.all_cons, List.all_cons, first.truthy_eq, ih rest]

end Lists

/-- What has been pushed is taken off the stacks again. -/
theorem splitOff_alike (machines : Machines w at_ p m m') (base : Nat) :
    Ends w at_ (fun q n n' => AllInHand hidden q n n') p (Run.splitOff base m)
      (Run.splitOff base m') := by
  have stack := machines.stack
  rw [Run.splitOff_eq, Run.splitOff_eq, stack.alike.length_eq]
  split
  · exact .error _ p.le_refl machines
  · refine .ok p.le_refl (machines.withStack ⟨stack.alike.drop _, ?_, ?_⟩)
      ⟨(stack.alike.take _).reverse, ?_, ?_⟩
    · exact fun v mem => stack.left v (List.mem_of_mem_drop mem)
    · exact fun v mem => stack.right v (List.mem_of_mem_drop mem)
    · exact fun v mem => stack.left v (List.mem_of_mem_take (List.mem_reverse.mp mem))
    · exact fun v mem => stack.right v (List.mem_of_mem_take (List.mem_reverse.mp mem))

/-! ## Builtins -/

namespace Builtin

variable {vs ws : List Value}

theorem plainText_eq {e e' : Encoder} (registry : e.registry = e'.registry) {v v' : Value}
    (alike : v.Alike hidden p v') : plainText e v = plainText e' v' := by
  cases alike with
  | str s => rfl
  | list items => exact congrArg String.ofList (Value.Alike.list items |>.value_eq registry)
  | closure body home =>
      exact congrArg String.ofList (Value.Alike.closure body home |>.value_eq registry)
  | handle paired fields =>
      exact congrArg String.ofList (Value.Alike.handle paired fields |>.value_eq registry)
  | _ => rfl

variable (machines : Machines w at_ p m m') (args : Value.AllAlike hidden p vs ws)

include machines args

theorem single_alike (b : Builtin) :
    Ends w at_ (Still m m' (Value.Alike hidden)) p (b.single vs m) (b.single ws m') := by
  have count : b.wrongCount 1 vs = b.wrongCount 1 ws :=
    congrArg (Fault.arity b.name 1) args.length_eq
  cases args with
  | nil => exact .fail machines _
  | cons first rest =>
      cases rest with
      | nil => exact .pure machines ⟨⟨rfl, rfl⟩, first⟩
      | cons _ _ =>
          unfold single
          rw [count]
          exact .fail machines _

theorem noArgs_alike (b : Builtin) :
    Ends w at_ (Still m m' Same) p (b.noArgs vs m) (b.noArgs ws m') := by
  have count : b.wrongCount 0 vs = b.wrongCount 0 ws :=
    congrArg (Fault.arity b.name 0) args.length_eq
  unfold noArgs
  rw [args.isEmpty_eq, count]
  split
  · exact .pure machines ⟨⟨rfl, rfl⟩, rfl⟩
  · exact .fail machines _

/-- Builtins do the same with values that look alike. -/
theorem run_alike (host host' : Host σ) (b : Builtin) :
    Ends w at_ (Pushed hidden) p (b.run host vs m) (b.run host' ws m') := by
  have flat : ∀ {q : Pairing} {n n' : Machine σ} {v : Value}, v.Alike hidden q v →
      v.isInvocable = false → Pushed hidden q n n' (some v) (some v) :=
    fun alike inert => .some (alike.inHand inert)
  cases b with
  | assert =>
      have count : wrongCount assert 1 vs = wrongCount assert 1 ws :=
        congrArg (Fault.arity _ 1) args.length_eq
      unfold run
      dsimp only
      rw [args.isEmpty_eq, args.truthy_eq, count]
      split
      · exact .fail machines _
      · split
        · exact .pure machines .none
        · exact .fail machines _
  | print =>
      exact .ok p.le_refl (machines.later p.le_refl rfl machines.one rfl rfl rfl rfl machines.below
        (Nat.le_refl _) (Nat.le_refl _)) .none
  | depth =>
      refine (noArgs_alike machines args _).bind ?_
      rintro q le _ _ _ _ machines ⟨⟨rfl, rfl⟩, -⟩
      refine .bind (R := Equal) (.ok q.le_refl machines machines.session.stack.length_eq) ?_
      rintro q le n n' height _ machines rfl
      exact .pure machines (flat (.int _) rfl)
  | drop =>
      refine (noArgs_alike machines args _).bind ?_
      rintro q le _ _ _ _ machines ⟨⟨rfl, rfl⟩, -⟩
      have popped : Ends w at_ (fun _ _ _ _ _ => True) q (Run.pop m) (Run.pop m') := by
        have stack := machines.stack
        rw [Run.pop_eq, Run.pop_eq]
        obtain ⟨alike, left, right⟩ := stack
        generalize m.session.stack = vs, m'.session.stack = ws at alike left right ⊢
        cases alike with
        | nil => exact .fail machines _
        | cons first rest =>
            exact .ok q.le_refl (machines.withStack ⟨rest, (List.forall_mem_cons.mp left).2,
              (List.forall_mem_cons.mp right).2⟩) trivial
      exact popped.bind fun _ _ _ _ _ _ machines _ => .pure machines .none
  | dup =>
      refine (noArgs_alike machines args _).bind ?_
      rintro q le _ _ _ _ machines ⟨⟨rfl, rfl⟩, -⟩
      refine (Ends.get machines).bind ?_
      rintro q le _ _ _ _ machines ⟨⟨rfl, rfl⟩, rfl, rfl⟩
      obtain ⟨alike, left, right⟩ := machines.stack
      generalize m.session.stack = vs, m'.session.stack = ws at alike left right ⊢
      cases alike with
      | nil => exact .fail machines _
      | cons first _ =>
          exact .pure machines
            (.some ⟨first, left _ List.mem_cons_self, right _ List.mem_cons_self⟩)
  | swap =>
      refine (noArgs_alike machines args _).bind ?_
      rintro q le _ _ _ _ machines ⟨⟨rfl, rfl⟩, -⟩
      refine (Ends.get machines).bind ?_
      rintro q le _ _ _ _ machines ⟨⟨rfl, rfl⟩, rfl, rfl⟩
      obtain ⟨alike, left, right⟩ := machines.stack
      generalize m.session.stack = vs, m'.session.stack = ws at alike left right ⊢
      cases alike with
      | nil => exact .fail machines _
      | cons top more =>
          cases more with
          | nil => exact .fail machines _
          | cons below rest =>
              simp only [List.forall_mem_cons] at left right
              refine .ok q.le_refl (machines.withStack ⟨.cons top rest, ?_, ?_⟩)
                (.some ⟨below, left.2.1, right.2.1⟩)
              · exact List.forall_mem_cons.mpr ⟨left.1, left.2.2⟩
              · exact List.forall_mem_cons.mpr ⟨right.1, right.2.2⟩
  | clear =>
      refine (noArgs_alike machines args _).bind ?_
      rintro q le _ _ _ _ machines ⟨⟨rfl, rfl⟩, -⟩
      exact .ok q.le_refl (machines.withStack .nil) .none
  | len =>
      refine (single_alike machines args _).bind ?_
      rintro q le _ _ v v' machines ⟨⟨rfl, rfl⟩, alike⟩
      cases alike with
      | str s => exact .pure machines (flat (.int _) rfl)
      | list items =>
          dsimp only
          rw [items.length_eq]
          exact .pure machines (flat (.int _) rfl)
      | _ => exact .fail machines _
  | str =>
      refine (single_alike machines args _).bind ?_
      rintro q le _ _ v v' machines ⟨⟨rfl, rfl⟩, alike⟩
      refine (Ends.get machines).bind ?_
      rintro q le' _ _ _ _ machines ⟨⟨rfl, rfl⟩, rfl, rfl⟩
      have text : plainText (host.encoder m) v = plainText (host'.encoder m') v' :=
        plainText_eq machines.session.registry alike
      rw [text]
      exact .pure machines (flat (.str _) rfl)
  | type =>
      refine (single_alike machines args _).bind ?_
      rintro q le _ _ v v' machines ⟨⟨rfl, rfl⟩, alike⟩
      rw [alike.typeName_eq]
      exact .pure machines (flat (.str _) rfl)

end Builtin

/-! ## Names -/

variable {f g : FrameId} {v v' : Value} {vs ws : List Value}

theorem lookup_alike (machines : Machines w at_ p m m') (enters : at_.Enters p f g) {name : String}
    (shown : ¬ hidden name) :
    Ends w at_ (Still m m' fun q => InHand hidden q m m') p (lookup name f m)
      (lookup name g m') := by
  have here := machines.get?_alike enters shown
  have around := machines.get?_alike machines.ambient shown
  rw [lookup_eq, lookup_eq]
  generalize m.common.store.get? f name = x, m'.common.store.get? g name = y at here ⊢
  cases here with
  | some fits => exact .pure machines ⟨⟨rfl, rfl⟩, fits⟩
  | none =>
      generalize m.common.store.get? m.session.ambient name = x,
        m'.common.store.get? m'.session.ambient name = y at around ⊢
      cases around with
      | some fits => exact .pure machines ⟨⟨rfl, rfl⟩, fits⟩
      | none => exact .fail machines _

/-- No value that looks alike another one has members. -/
theorem membersOf_alike (host host' : Host σ) (machines : Machines w at_ p m m')
    (fits : InHand hidden p m m' v v') (names : List String) :
    Ends w at_ (fun q n n' => InHand hidden q n n') p (membersOf host v names m)
      (membersOf host' v' names m') := by
  cases names with
  | nil => exact .pure machines fits
  | cons name names =>
      have none : Ends w at_ (fun _ _ _ _ _ => False) p (member host v name m)
          (member host' v' name m') := by
        cases fits.alike <;> exact .fail machines _
      exact none.bind fun _ _ _ _ _ _ _ => False.elim

theorem resolve_alike (host host' : Host σ) (machines : Machines w at_ p m m')
    (enters : at_.Enters p f g) {path : Path} (shown : ¬ hidden path.root) :
    Ends w at_ (fun q n n' => InHand hidden q n n') p (resolve host path f m)
      (resolve host' path g m') := by
  refine (lookup_alike machines enters shown).bind ?_
  rintro q le _ _ v v' machines ⟨⟨rfl, rfl⟩, fits⟩
  obtain ⟨_ | ⟨first, members⟩⟩ := path
  · exact .throw machines _
  · exact membersOf_alike host host' machines fits _

/-! ## Invocations -/

/-- Machines that look alike do the same with trees that do, when the given number of invocations
may still nest. -/
def Faithful (w : Sides σ hidden root) (host host' : Host σ) (levels : Nat) : Prop :=
  ∀ {at_ : Places} {p : Pairing} {m m' : Machine σ} {f g : FrameId} {t u : Tree},
    t.Alike hidden p u → at_.Enters p f g → Machines w at_ p m m' →
    Ends w at_ Equal p (evalTree host (inside host levels) t f m)
      (evalTree host' (inside host' levels) u g m')

section Calls

variable {host host' : Host σ} {levels : Nat}
  (fewer : ∀ level, levels = level + 1 → Faithful w host host' level)

include fewer

/-- The body of a function, in a frame that binds its parameters. -/
theorem body_alike {t u : Tree} (machines : Machines w at_ p m m') (body : t.Alike hidden p u)
    (paired : p.frames f g) (kept : m.Keeps f) (kept' : m'.Keeps g)
    {bs cs : List (String × Value)} (alike : BindingsAlike hidden p bs cs)
    (left : ∀ b ∈ bs, m.Houses b.2) (right : ∀ b ∈ cs, m'.Houses b.2) :
    Ends w at_ Equal p
      ((newFrame f bs >>= fun frame =>
        invocation (inside host levels) fun level => holding frame (level.run t frame)) m)
      ((newFrame g cs >>= fun frame =>
        invocation (inside host' levels) fun level => holding frame (level.run u frame)) m') := by
  have le := p.le_withFrames m.common.store.frames.size m'.common.store.frames.size
  have framed := machines.framed paired alike left right
  have depth : (m.framed f bs).session.depth = m.session.depth := rfl
  have depth' : (m'.framed g cs).session.depth = m.session.depth := machines.session.depth.symm
  rw [inFrame_eq, inFrame_eq, invocation_eq, invocation_eq, depth, depth']
  by_cases deep : invocationLimit ≤ m.session.depth
  · rw [if_pos deep, if_pos deep]
    exact .error _ le framed
  · rw [if_neg deep, if_neg deep]
    cases levels with
    | zero => exact .error _ le framed
    | succ levels =>
        have called := machines.called paired kept kept' alike left right
        have ran := fewer levels rfl (body.mono le)
          ⟨.inr ⟨rfl, rfl⟩, List.mem_cons_of_mem _ List.mem_cons_self,
            List.mem_cons_of_mem _ List.mem_cons_self⟩ called
        change Ends w at_ Equal p
          (counted (holding m.common.store.frames.size
            (evalTree host (inside host levels) t m.common.store.frames.size)) (m.framed f bs))
          (counted (holding m'.common.store.frames.size
            (evalTree host' (inside host' levels) u m'.common.store.frames.size)) (m'.framed g cs))
        rw [counted_eq, counted_eq, holding_eq, holding_eq]
        generalize evalTree host (inside host levels) t m.common.store.frames.size
            ((m.framed f bs).enter.hold m.common.store.frames.size) = x,
          evalTree host' (inside host' levels) u m'.common.store.frames.size
            ((m'.framed g cs).enter.hold m'.common.store.frames.size) = y at ran ⊢
        cases ran with
        | ok le' machines same => exact .ok (p.le_trans le le') machines.back same
        | error stop le' machines => exact .error stop (p.le_trans le le') machines.back

theorem callValue_alike (machines : Machines w at_ p m m') (enters : at_.Enters p f g)
    (callee : InHand hidden p m m' v v') (name : String) (args : AllInHand hidden p m m' vs ws) :
    Ends w at_ Equal p (callValue host (inside host levels) v name vs f m)
      (callValue host' (inside host' levels) v' name ws g m') := by
  obtain ⟨alike, housed, housed'⟩ := callee
  cases alike with
  | native b =>
      refine (Builtin.run_alike machines args.alike host host' b).bind ?_
      rintro q le n n' x y machines pushed
      cases pushed with
      | none => exact .pure machines rfl
      | some fits => exact .push machines fits
  | @closure params t u home home' body homes =>
      have housed : m.Houses (.closure params t home) := housed
      have housed' : m'.Houses (.closure params u home') := housed'
      have around : p.frames (home.getD f) (home'.getD g) := by
        cases homes with
        | none => exact enters.paired
        | some paired => exact paired
      have kept := housed.keeps_around (machines.enters_left enters)
      have kept' := housed'.keeps_around (machines.enters_right enters)
      rw [callValue_closure, callValue_closure, housed.around_eq, housed'.around_eq,
        args.alike.length_eq]
      have bound := BindingsAlike.zip params args.alike
      have left : ∀ b ∈ params.zip vs, m.Houses b.2 := fun b mem =>
        args.left _ (List.of_mem_zip mem).2
      have right : ∀ b ∈ params.zip ws, m'.Houses b.2 := fun b mem =>
        args.right _ (List.of_mem_zip mem).2
      split
      · split
        · exact body_alike fewer (machines.pushAll args) body around kept kept' bound left right
        · exact body_alike fewer machines body around kept kept' bound left right
      · exact .error _ p.le_refl machines
  | _ => exact .fail machines _

/-- Only names are called, as nothing has members. -/
theorem callPath_alike (machines : Machines w at_ p m m') (enters : at_.Enters p f g) {path : Path}
    (shown : ¬ hidden path.root) (args : AllInHand hidden p m m' vs ws) :
    Ends w at_ Equal p (callPath host (inside host levels) path vs f m)
      (callPath host' (inside host' levels) path ws g m') := by
  obtain ⟨segments⟩ := path
  rcases segments.eq_nil_or_concat with rfl | ⟨receiver, last, rfl⟩
  · exact .fail machines _
  rw [callPath, callPath]
  simp only [List.concat_eq_append, List.getLast?_append, List.getLast?_singleton, Option.some_or,
    List.dropLast_concat]
  cases receiver with
  | nil =>
      have shown : ¬ hidden last := shown
      refine (lookup_alike machines enters shown).bind ?_
      rintro q le _ _ v v' machines ⟨⟨rfl, rfl⟩, callee⟩
      exact callValue_alike fewer machines (enters.mono le) callee last
        ⟨args.alike.mono le, args.left, args.right⟩
  | cons first others =>
      have root : ¬ hidden (Path.mk (first :: others)).root := shown
      refine (resolve_alike host host' machines enters root).bind ?_
      rintro q le n n' v v' machines ⟨alike, -, -⟩
      cases alike <;> exact .fail machines _

theorem dispatch_alike (machines : Machines w at_ p m m') (enters : at_.Enters p f g) {head : Head}
    (shown : ∀ path, head = .invoke path → ¬ hidden path.root)
    (args : AllInHand hidden p m m' vs ws) :
    Ends w at_ Equal p (dispatch host (inside host levels) head vs f m)
      (dispatch host' (inside host' levels) head ws g m') := by
  cases head with
  | sequence => exact .ok p.le_refl (machines.pushAll args) rfl
  | bind name =>
      have last := args.alike.getLast?
      have left := fun v mem => args.left v (List.mem_of_getLast? (a := v) mem)
      have right := fun v mem => args.right v (List.mem_of_getLast? (a := v) mem)
      unfold dispatch
      dsimp only
      generalize vs.getLast? = x, ws.getLast? = y at last left right ⊢
      cases last with
      | none => exact .fail machines _
      | some alike =>
          have rest := machines.pushAll ⟨args.alike.dropLast,
            fun v mem => args.left v (vs.dropLast_subset mem),
            fun v mem => args.right v (ws.dropLast_subset mem)⟩
          exact .ok p.le_refl
            (rest.bind enters.paired name ⟨alike, left _ rfl, right _ rfl⟩) rfl
  | op operator =>
      have applied := operator.apply_alike machines.one args.alike
      have computes : Ends w at_ (fun q n n' => InHand hidden q n n') p
          (Run.ofExcept (operator.apply vs) m) (Run.ofExcept (operator.apply ws) m') := by
        cases computed : operator.apply vs with
        | error fault =>
            rw [computed] at applied
            generalize operator.apply ws = y at applied ⊢
            cases applied with
            | error => exact .fail machines _
        | ok v =>
            have inert := (Operator.data_apply computed).inert
            rw [computed] at applied
            generalize operator.apply ws = y at applied ⊢
            cases applied with
            | ok alike => exact .pure machines (alike.inHand inert)
      exact computes.bind fun _ _ _ _ _ _ machines fits => .push machines fits
  | list => exact .push machines ((Value.Alike.list args.alike).inHand rfl)
  | construct typeName =>
      have decoded := machines.session.natural.decode machines.one typeName args.alike
        m.common.serial m'.common.serial
      have step : ∀ (host : Host σ) (vs : List Value) (f : FrameId) (n : Machine σ),
          dispatch host (inside host levels) (.construct typeName) vs f n =
          (match n.session.registry.decode typeName vs n.common.serial with
          | .error fault => Run.fail fault
          | .ok v => do
              set (n.numbered (n.common.serial + 1))
              Run.push v : Run σ Unit) n := by
        intro host vs f n
        have whole : dispatch host (inside host levels) (.construct typeName) vs f n =
            (Run.ofExcept (n.session.registry.decode typeName vs n.common.serial) >>= fun v => do
              set (n.numbered (n.common.serial + 1))
              Run.push v : Run σ Unit) n := rfl
        rw [whole]
        cases n.session.registry.decode typeName vs n.common.serial <;> rfl
      rw [step, step, ← machines.session.registry]
      cases made : m.session.registry.decode typeName vs m.common.serial with
      | error fault =>
          rw [made] at decoded
          generalize m.session.registry.decode typeName ws m'.common.serial = y at decoded ⊢
          cases decoded with
          | error => exact .fail machines _
      | ok v =>
          obtain ⟨kind, fields, rfl⟩ := Registry.handle_of_decode made
          rw [made] at decoded
          generalize m.session.registry.decode typeName ws m'.common.serial = y at decoded ⊢
          cases decoded with
          | ok alike =>
              have le := p.le_withSerials m.common.serial m'.common.serial
              have numbered := machines.later (c := { m.common with serial := m.common.serial + 1 })
                (d := { m'.common with serial := m'.common.serial + 1 }) le rfl
                (machines.one.withSerials machines.below) rfl rfl rfl rfl
                machines.below.withSerials (Nat.le_succ _) (Nat.le_succ _)
              exact .ok le (numbered.push (alike.inHand rfl)) rfl
  | invoke path => exact callPath_alike fewer machines enters (shown path rfl) args

end Calls

/-! ## Trees -/

section Trees

variable {host host' : Host σ} {levels : Nat}

mutual

theorem evalTree_alike (fewer : ∀ level, levels = level + 1 → Faithful w host host' level) :
    ∀ {t u : Tree} {p : Pairing} {m m' : Machine σ}, t.Alike hidden p u → at_.Enters p f g →
    Machines w at_ p m m' → Ends w at_ Equal p (evalTree host (inside host levels) t f m)
      (evalTree host' (inside host' levels) u g m')
  | .literal v, _, p, m, m', alike, enters, machines => by
      cases alike with
      | literal value =>
          cases value with
          | @closure params t u home home' body homes =>
              rw [evalTree, evalTree]
              obtain ⟨captured, mem, mem'⟩ := machines.capture enters
              refine .ok p.le_refl (captured.push ⟨.closure body (.some enters.paired), ?_, ?_⟩) rfl
              · rintro _ _ _ ⟨⟩
                exact mem
              · rintro _ _ _ ⟨⟩
                exact mem'
          | native b =>
              rw [evalTree_plain _ _ (by simp), evalTree_plain _ _ (by simp)]
              exact .push machines ⟨.native b, Machine.houses_plain (by simp),
                Machine.houses_plain (by simp)⟩
          | bool b =>
              rw [evalTree_plain _ _ (by simp), evalTree_plain _ _ (by simp)]
              exact .push machines ((Value.Alike.bool b).inHand rfl)
          | int i =>
              rw [evalTree_plain _ _ (by simp), evalTree_plain _ _ (by simp)]
              exact .push machines ((Value.Alike.int i).inHand rfl)
          | float x =>
              rw [evalTree_plain _ _ (by simp), evalTree_plain _ _ (by simp)]
              exact .push machines ((Value.Alike.float x).inHand rfl)
          | str s =>
              rw [evalTree_plain _ _ (by simp), evalTree_plain _ _ (by simp)]
              exact .push machines ((Value.Alike.str s).inHand rfl)
          | list items =>
              rw [evalTree_plain _ _ (by simp), evalTree_plain _ _ (by simp)]
              exact .push machines ((Value.Alike.list items).inHand rfl)
          | handle paired fields =>
              rw [evalTree_plain _ _ (by simp), evalTree_plain _ _ (by simp)]
              exact .push machines ((Value.Alike.handle paired fields).inHand rfl)
  | .reference path, _, p, m, m', alike, enters, machines => by
      cases alike with
      | reference shown =>
          rw [evalTree, evalTree]
          exact (resolve_alike host host' machines enters shown).bind
            fun _ _ _ _ _ _ machines fits => .push machines fits
  | .call head args, _, p, m, m', alike, enters, machines => by
      cases alike with
      | call shown alike =>
          by_cases single : head = .sequence
          · subst single
            rw [evalTree, evalTree]
            exact evalTrees_alike fewer alike enters machines
          · rw [evalTree_applied host _ single, evalTree_applied host' _ single,
              Run.bind_of_ok Run.height_eq, Run.bind_of_ok Run.height_eq,
              machines.session.stack.length_eq]
            refine (evalTrees_alike fewer alike enters machines).bind ?_
            rintro q le n n' _ _ machines -
            refine (splitOff_alike machines _).bind ?_
            rintro q' le' n n' vs ws machines values
            exact dispatch_alike fewer machines ((enters.mono le).mono le') shown values

theorem evalTrees_alike (fewer : ∀ level, levels = level + 1 → Faithful w host host' level) :
    ∀ {ts us : List Tree} {p : Pairing} {m m' : Machine σ}, Tree.AllAlike hidden p ts us →
    at_.Enters p f g → Machines w at_ p m m' →
    Ends w at_ Equal p (evalTrees host (inside host levels) ts f m)
      (evalTrees host' (inside host' levels) us g m')
  | [], _, p, m, m', alike, enters, machines => by
      cases alike
      exact .pure machines rfl
  | t :: ts, _, p, m, m', alike, enters, machines => by
      cases alike with
      | cons first rest =>
          rw [evalTrees, evalTrees]
          refine (evalTree_alike fewer first enters machines).bind ?_
          rintro q le n n' _ _ machines -
          exact evalTrees_alike fewer (rest.mono le) (enters.mono le) machines

end

end Trees

/-- However many invocations may nest, what they do is the same on machines that look alike. -/
theorem faithful (w : Sides σ hidden root) (host host' : Host σ) (levels : Nat) :
    Faithful w host host' levels := by
  induction levels with
  | zero =>
      intro at_ p m m' f g t u alike enters machines
      have fewer : ∀ level, 0 = level + 1 → Faithful w host host' level :=
        fun _ same => nomatch same
      exact evalTree_alike fewer alike enters machines
  | succ levels ih =>
      intro at_ p m m' f g t u alike enters machines
      have fewer : ∀ level, levels + 1 = level + 1 → Faithful w host host' level := by
        rintro _ ⟨⟩
        exact ih
      exact evalTree_alike fewer alike enters machines

theorem caught_alike {r r' : Run σ Unit} (h : Ends w at_ Equal p (r m) (r' m')) :
    Ends w at_ Equal p (Run.caught r m) (Run.caught r' m') := by
  rw [Run.caught_eq, Run.caught_eq]
  generalize r m = x, r' m' = y at h ⊢
  cases h with
  | ok le machines _ => exact .ok le machines rfl
  | error stop le machines =>
      cases stop with
      | failed fault => exact .ok le machines rfl
      | broken => exact .error _ le machines
      | unfinished => exact .error _ le machines

/-- The machine when a script has been cut short. -/
def Machine.cut (m : Machine σ) : Machine σ := { m with session := { m.session with depth := 0 } }

theorem Machine.cut_eq (rest : m.session.depth = 0) : m.cut = m := by
  obtain ⟨session, common⟩ := m
  obtain ⟨registry, ambient, stack, depth, running, captured, sweepAt⟩ := session
  cases rest
  rfl

/-- A script does the same on machines that look alike, when no invocation is under way. -/
theorem runScript_alike (host host' : Host σ) {t u : Tree} (alike : t.Alike hidden p u)
    (rest : at_.left.depth = 0) (machines : Machines w at_ p m m') :
    Ends w at_ Equal p (runScript host t m) (runScript host' u m') := by
  have depth : m'.levels = m.levels := by
    rw [Machine.levels, Machine.levels, machines.session.depth]
  have ran := faithful w host host' m.levels alike machines.ambient machines
  rw [runScript_eq, runScript_eq, evalIn, evalIn, depth]
  generalize evalTree host (inside host m.levels) t m.session.ambient m = x,
    evalTree host' (inside host' m.levels) u m'.session.ambient m' = y at ran ⊢
  cases ran with
  | ok le machines _ => exact .ok le machines rfl
  | @error q stop n n' le machines =>
      cases stop with
      | failed fault =>
          have idle : n.session.depth = 0 := (congrArg Place.depth machines.place_left).trans rest
          have cut := machines.push ((Value.Alike.str fault.errorText).inHand rfl)
          rw [← Machine.cut_eq idle, ← Machine.cut_eq (machines.session.depth.symm.trans idle)]
            at cut
          exact .error _ le cut
      | broken => exact .error _ le machines
      | unfinished => exact .error _ le machines

end PeerScript
