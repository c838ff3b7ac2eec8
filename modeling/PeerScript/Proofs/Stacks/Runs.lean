import PeerScript.Proofs.Closures.Lives
import PeerScript.Proofs.Stacks

/-!
# The stack discipline of runs

Running a tree takes nothing off the stack that lay there before and does not depend on it:
`stack_discipline`.  The proof runs the tree on machines that are `Abreast`, through the tree and
through the invocations by the number of levels that may still nest.

The arguments of a call are run with everything below kept, so what its head gets is exactly what
they have pushed, and this is the same for both machines.
-/

set_option autoImplicit false

namespace PeerScript

variable {σ α β : Type} {stand : Stand} {kept below below' : List Value} {m m' : Machine σ}
  {right : Machine σ → Machine σ → α → Prop} {other : Machine σ → Machine σ → β → Prop}

/-- The same end, abreast and with a result that is right. -/
inductive Matched (stand : Stand) (kept below below' : List Value)
    (right : Machine σ → Machine σ → α → Prop) :
    EStateM.Result Stop (Machine σ) α → EStateM.Result Stop (Machine σ) α → Prop
  | ok {a : α} {m m' : Machine σ} : Abreast stand kept below below' m m' → right m m' a →
      Matched stand kept below below' right (.ok a m) (.ok a m')
  | failed (fault : Fault) {m m' : Machine σ} : Abreast stand kept below below' m m' →
      Matched stand kept below below' right (.error (.failed fault) m) (.error (.failed fault) m')

namespace Matched

theorem lower {above : List Value} {r r' : EStateM.Result Stop (Machine σ) α}
    (h : Matched stand (above ++ kept) below below' Quiet r r') :
    Matched stand kept below below' Quiet r r' := by
  cases h with
  | ok abreast _ => exact .ok abreast.lower trivial
  | failed fault abreast => exact .failed fault abreast.lower

theorem bind {r r' : Run σ α} {f f' : α → Run σ β}
    (first : Matched stand kept below below' right (r m) (r' m'))
    (next : ∀ a n n', Abreast stand kept below below' n n' → right n n' a →
      Matched stand kept below below' other (f a n) (f' a n')) :
    Matched stand kept below below' other ((r >>= f) m) ((r' >>= f') m') := by
  change Matched stand kept below below' other (EStateM.bind r f m) (EStateM.bind r' f' m')
  unfold EStateM.bind
  generalize r m = x, r' m' = y at first ⊢
  cases first with
  | ok abreast known => exact next _ _ _ abreast known
  | failed fault abreast => exact .failed fault abreast

theorem pure {a : α} (abreast : Abreast stand kept below below' m m') (known : right m m' a) :
    Matched stand kept below below' right ((Pure.pure a : Run σ α) m)
      ((Pure.pure a : Run σ α) m') :=
  .ok abreast known

theorem fail {fault : Fault} (abreast : Abreast stand kept below below' m m') :
    Matched stand kept below below' right (Run.fail fault m) (Run.fail fault m') :=
  .failed fault abreast

theorem push {v : Value} (abreast : Abreast stand kept below below' m m')
    (suits : Suits stand.anchors m m' v) :
    Matched stand kept below below' Quiet (Run.push v m) (Run.push v m') :=
  .ok (abreast.push suits) trivial

end Matched

/-! ## Names -/

section Names

variable {scope : FrameId} (abreast : Abreast stand kept below below' m m')

include abreast

/-- A name means the same to both, and nothing else happens. -/
theorem matched_lookup (root : scope ∈ stand.roots) (name : String) :
    Matched stand kept below below' (fun n n' v => (n = m ∧ n' = m') ∧ Suits stand.anchors m m' v)
      (lookup name scope m) (lookup name scope m') := by
  have ambient : m.session.ambient = stand.place.ambient := congrArg Place.ambient abreast.place
  have ambient' : m'.session.ambient = stand.place.ambient := congrArg Place.ambient abreast.place'
  rw [lookup_eq, lookup_eq, ambient, ambient', abreast.common]
  cases here : m.common.store.get? scope name with
  | some v => exact .pure abreast ⟨⟨rfl, rfl⟩, abreast.get? root here⟩
  | none =>
      cases there : m.common.store.get? stand.place.ambient name with
      | some v =>
        exact .pure abreast
          ⟨⟨rfl, rfl⟩, abreast.get? (List.mem_append_left _ List.mem_cons_self) there⟩
      | none => exact .fail abreast

/-- Only objects have members, and there are none. -/
theorem matched_members (host : Host σ) {v : Value} (suits : Suits stand.anchors m m' v)
    (names : List String) :
    Matched stand kept below below' (fun n n' v => Suits stand.anchors n n' v)
      (membersOf host v names m) (membersOf host v names m') := by
  cases names with
  | nil => exact .pure abreast suits
  | cons name rest =>
      have none : ∀ n : Machine σ, member host v name n =
          Run.fail (.unknownMember v.typeName name) n := by
        intro n
        cases v with
        | object o => exact absurd suits.within (by simp [Value.Within, Kit.flat, Kit.level])
        | _ => rfl
      have failed : Matched stand kept below below' (fun _ _ _ => False) (member host v name m)
          (member host v name m') := by
        rw [none, none]
        exact .fail abreast
      exact failed.bind fun _ _ _ _ => False.elim

theorem matched_resolve (host : Host σ) {path : Path} (named : path.segments ≠ [])
    (root : scope ∈ stand.roots) :
    Matched stand kept below below' (fun n n' v => Suits stand.anchors n n' v)
      (resolve host path scope m) (resolve host path scope m') := by
  refine (matched_lookup abreast root path.root).bind ?_
  rintro v _ _ abreast ⟨⟨rfl, rfl⟩, suits⟩
  obtain ⟨_ | ⟨first, others⟩⟩ := path
  · exact absurd rfl named
  · exact matched_members abreast host suits others

end Names

/-! ## Builtins -/

theorem matched_single (b : Builtin) (abreast : Abreast stand kept below below' m m')
    (args : List Value) :
    Matched stand kept below below' Quiet (b.single args m) (b.single args m') := by
  unfold Builtin.single
  split
  · exact .pure abreast trivial
  · exact .fail abreast

theorem matched_builtin (host : Host σ) {b : Builtin} (flat : b.looksDown = false)
    (abreast : Abreast stand kept below below' m m') (args : List Value) :
    Matched stand kept below below' (fun n n' v => ∀ w ∈ v, Suits stand.anchors n n' w)
      (b.run host args m) (b.run host args m') := by
  let result : Machine σ → Machine σ → Option Value → Prop := fun n n' v =>
    ∀ w ∈ v, Suits stand.anchors n n' w
  have quiet : ∀ {n n' : Machine σ}, Abreast stand kept below below' n n' →
      Matched stand kept below below' result ((pure none : Run σ (Option Value)) n)
        ((pure none : Run σ (Option Value)) n') := fun abreast => .pure abreast nofun
  have tells : ∀ {n n' : Machine σ} {v : Value}, Abreast stand kept below below' n n' → v.IsData →
      Matched stand kept below below' result ((pure (some v) : Run σ (Option Value)) n)
        ((pure (some v) : Run σ (Option Value)) n') := fun abreast data =>
    .pure abreast fun _ same => Option.some.inj same ▸ suits_data data
  have encoder : ∀ {n n' : Machine σ}, Abreast stand kept below below' n n' →
      host.encoder n' = host.encoder n := by
    intro n n' abreast
    have registry : n'.session.registry = n.session.registry :=
      congrArg Place.registry (abreast.place'.trans abreast.place.symm)
    rw [Host.encoder, Host.encoder, registry, abreast.common]
  cases b with
  | depth | drop | dup | swap | clear => exact nomatch flat
  | assert =>
      change Matched stand kept below below' result
        ((if args.isEmpty then Run.fail (Builtin.wrongCount .assert 1 args)
          else if args.all Value.truthy then pure none else Run.fail .assertionFailed :
            Run σ (Option Value)) m)
        ((if args.isEmpty then Run.fail (Builtin.wrongCount .assert 1 args)
          else if args.all Value.truthy then pure none else Run.fail .assertionFailed :
            Run σ (Option Value)) m')
      split
      · exact .fail abreast
      · split
        · exact quiet abreast
        · exact .fail abreast
  | print =>
      have step : ∀ n : Machine σ, Builtin.run host .print args n = .ok none
          { n with common := { n.common with printed :=
            (" ".intercalate (args.map (Builtin.plainText (host.encoder n)))) :: n.common.printed }
              } :=
        fun _ => rfl
      have before : m'.common.printed = m.common.printed := congrArg Common.printed abreast.common
      rw [step, step, encoder abreast, before]
      exact quiet (abreast.printed _)
  | len =>
      refine (matched_single .len abreast args).bind fun v n n' abreast _ => ?_
      split
      · exact tells abreast (.int _)
      · exact tells abreast (.int _)
      · exact .fail abreast
  | str =>
      refine (matched_single .str abreast args).bind fun v n n' abreast _ => ?_
      change Matched stand kept below below' result
        ((pure (some (.str (Builtin.plainText (host.encoder n) v))) : Run σ (Option Value)) n)
        ((pure (some (.str (Builtin.plainText (host.encoder n') v))) : Run σ (Option Value)) n')
      rw [encoder abreast]
      exact tells abreast (.str _)
  | type =>
      exact (matched_single .type abreast args).bind fun v n n' abreast _ => tells abreast (.str _)

/-! ## Invocations -/

/-- Machines abreast that run a tree end in the same way. -/
def Matching (host : Host σ) (levels : Nat) : Prop :=
  ∀ {stand : Stand} {kept below below' : List Value} {m m' : Machine σ}
    {scope : FrameId} {t : Tree},
    t.Within .flat → scope ∈ stand.roots → invocationLimit ≤ stand.place.depth + levels →
    Abreast stand kept below below' m m' →
    Matched stand kept below below' Quiet (evalTree host (inside host levels) t scope m)
      (evalTree host (inside host levels) t scope m')

section Levels

variable {host : Host σ} {levels : Nat} {scope : FrameId}
  (fewer : ∀ level, levels = level + 1 → Matching host level)
  (enough : invocationLimit ≤ stand.place.depth + levels)

include fewer enough

/-- The body of a function runs in a new frame, if one more invocation may nest. -/
theorem matched_body {body : Tree} (flat : body.Within .flat) (root : scope ∈ stand.roots)
    {home : Option FrameId} (same : m'.around home scope = m.around home scope)
    {bindings : List (String × Value)} (abreast : Abreast stand kept below below' m m')
    (suits : ∀ b ∈ bindings, Suits stand.anchors m m' b.2) :
    Matched stand kept below below' Quiet
      ((newFrame (m.around home scope) bindings >>= fun frame =>
        invocation (inside host levels) fun level => holding frame (level.run body frame)) m)
      ((newFrame (m.around home scope) bindings >>= fun frame =>
        invocation (inside host levels) fun level => holding frame (level.run body frame)) m') := by
  have depth : (m.framed (m.around home scope) bindings).session.depth = stand.place.depth ∧
      (m'.framed (m.around home scope) bindings).session.depth = stand.place.depth :=
    ⟨congrArg Place.depth abreast.place, congrArg Place.depth abreast.place'⟩
  obtain ⟨framed, called⟩ := abreast.called root same suits
  rw [inFrame_eq, inFrame_eq, invocation_eq, invocation_eq, depth.1, depth.2]
  by_cases deep : invocationLimit ≤ stand.place.depth
  · rw [if_pos deep, if_pos deep]
    exact .fail framed
  · rw [if_neg deep, if_neg deep]
    cases levels with
    | zero => exact absurd enough deep
    | succ levels =>
        have ran := fewer levels rfl flat (stand.roots_inFrame _)
          (show invocationLimit ≤ (stand.inFrame m.common.store.frames.size).place.depth + levels by
            unfold Stand.inFrame Place.inFrame
            dsimp only
            omega) called
        rw [abreast.common]
        change Matched stand kept below below' Quiet
          (counted (holding m.common.store.frames.size
            (evalTree host (inside host levels) body m.common.store.frames.size))
            (m.framed (m.around home scope) bindings))
          (counted (holding m.common.store.frames.size
            (evalTree host (inside host levels) body m.common.store.frames.size))
            (m'.framed (m.around home scope) bindings))
        rw [counted_eq, counted_eq, holding_eq, holding_eq]
        generalize evalTree host (inside host levels) body m.common.store.frames.size
            ((m.framed (m.around home scope) bindings).enter.hold m.common.store.frames.size) = x,
          evalTree host (inside host levels) body m.common.store.frames.size
            ((m'.framed (m.around home scope) bindings).enter.hold m.common.store.frames.size) =
            y at ran ⊢
        cases ran with
        | ok abreast _ => exact .ok abreast.back trivial
        | failed fault abreast => exact .failed fault abreast.back

theorem matched_call {callee : Value} {name : String} {args : List Value}
    (root : scope ∈ stand.roots) (abreast : Abreast stand kept below below' m m')
    (callable : Suits stand.anchors m m' callee) (suits : ∀ v ∈ args, Suits stand.anchors m m' v) :
    Matched stand kept below below' Quiet
      (callValue host (inside host levels) callee name args scope m)
      (callValue host (inside host levels) callee name args scope m') := by
  cases callee with
  | native b =>
      have flat : b.looksDown = false := by
        simpa [Value.Within, Kit.flat, Kit.level] using callable.within
      refine (matched_builtin host flat abreast args).bind fun v n n' abreast suits => ?_
      cases v with
      | none => exact .pure abreast trivial
      | some v => exact .push abreast (suits v rfl)
  | closure params body home =>
      have flat : body.Within .flat := by simpa [Value.Within] using callable.within
      have same := abreast.around_eq scope callable.settled
      have among : ∀ b ∈ params.zip args, Suits stand.anchors m m' b.2 := fun b mem =>
        suits _ (List.of_mem_zip mem).2
      rw [callValue_closure, callValue_closure, same]
      split
      · split
        · -- the arguments are put back
          have put := abreast.pushAll suits
          have same : (m'.pushAll args).around home scope =
              (m.pushAll args).around home scope := same
          exact matched_body fewer enough flat root same put fun b mem =>
            ⟨(among b mem).within, (among b mem).settled⟩
        · exact matched_body fewer enough flat root same abreast among
      · exact .failed _ abreast
  | _ => exact .fail abreast

theorem matched_path {path : Path} {args : List Value} (root : scope ∈ stand.roots)
    (abreast : Abreast stand kept below below' m m')
    (suits : ∀ v ∈ args, Suits stand.anchors m m' v) :
    Matched stand kept below below' Quiet
      (callPath host (inside host levels) path args scope m)
      (callPath host (inside host levels) path args scope m') := by
  obtain ⟨segments⟩ := path
  rcases segments.eq_nil_or_concat with rfl | ⟨receiver, last, rfl⟩
  · exact .fail abreast
  unfold callPath
  simp only [List.concat_eq_append, List.getLast?_append, List.getLast?_singleton, Option.some_or,
    List.dropLast_concat]
  cases receiver with
  | nil =>
      refine (matched_lookup abreast root _).bind ?_
      rintro callee _ _ abreast ⟨⟨rfl, rfl⟩, callable⟩
      exact matched_call fewer enough root abreast callable suits
  | cons first others =>
      have named : (⟨first :: others⟩ : Path).segments ≠ [] := List.cons_ne_nil _ _
      refine (matched_resolve abreast host named root).bind fun v n n' abreast suits => ?_
      cases v with
      | object o => exact absurd suits.within (by simp [Value.Within, Kit.flat, Kit.level])
      | _ => exact .fail abreast

/-! ## Trees -/

theorem matched_dispatch {head : Head} {args : List Value} (root : scope ∈ stand.roots)
    (abreast : Abreast stand kept below below' m m')
    (suits : ∀ v ∈ args, Suits stand.anchors m m' v) :
    Matched stand kept below below' Quiet
      (dispatch host (inside host levels) head args scope m)
      (dispatch host (inside host levels) head args scope m') := by
  cases head with
  | sequence => exact .ok (abreast.pushAll suits) trivial
  | bind name =>
      unfold dispatch
      cases last : args.getLast? with
      | none => exact .fail abreast
      | some v =>
          have suit := suits v (List.mem_of_getLast? last)
          have rest := abreast.pushAll fun v mem => suits v (args.dropLast_subset mem)
          exact .ok (rest.bind ⟨suit.within, suit.settled⟩ scope name) trivial
  | op operator =>
      have computes : Matched stand kept below below' (fun _ _ v => v.IsData)
          (Run.ofExcept (operator.apply args) m) (Run.ofExcept (operator.apply args) m') := by
        cases computed : operator.apply args with
        | error fault => exact .fail abreast
        | ok v => exact .pure abreast (Operator.data_apply computed)
      exact computes.bind fun _ _ _ abreast data => .push abreast (suits_data data)
  | list => exact .push abreast (suits_data (.list _))
  | construct typeName =>
      have step : ∀ n : Machine σ, dispatch host (inside host levels)
          (.construct typeName) args scope n =
          (match n.session.registry.decode typeName args n.common.serial with
          | .error fault => Run.fail fault
          | .ok v => do
              set (n.numbered (n.common.serial + 1))
              Run.push v : Run σ Unit) n := by
        intro n
        have whole : dispatch host (inside host levels) (.construct typeName) args scope n =
            (Run.ofExcept (n.session.registry.decode typeName args n.common.serial) >>= fun v => do
              set (n.numbered (n.common.serial + 1))
              Run.push v : Run σ Unit) n := rfl
        rw [whole]
        cases n.session.registry.decode typeName args n.common.serial <;> rfl
      have registry : m'.session.registry = m.session.registry :=
        congrArg Place.registry (abreast.place'.trans abreast.place.symm)
      have serial : m'.common.serial = m.common.serial := congrArg Common.serial abreast.common
      rw [step, step m', registry, serial]
      cases decoded : m.session.registry.decode typeName args m.common.serial with
      | error fault => exact .fail abreast
      | ok v =>
          obtain ⟨kind, fields, rfl⟩ := Registry.handle_of_decode decoded
          have numbered := abreast.numbered
          rw [serial] at numbered
          exact .ok (numbered.push ⟨by simp only [Value.Within], settled_inert rfl⟩) trivial
  | invoke path => exact matched_path fewer enough root abreast suits

omit fewer enough in
theorem matched_literal {v : Value} (flat : v.Within .flat) (root : scope ∈ stand.roots)
    (abreast : Abreast stand kept below below' m m') :
    Matched stand kept below below' Quiet
      (evalTree host (inside host levels) (.literal v) scope m)
      (evalTree host (inside host levels) (.literal v) scope m') := by
  by_cases made : ∃ params body home, v = .closure params body home
  · obtain ⟨params, body, home, rfl⟩ := made
    rw [evalTree]
    obtain ⟨captured, settled⟩ := abreast.capture root
    have within : (Value.closure params body (some scope)).Within .flat := by
      simpa [Value.Within] using flat
    exact .ok (captured.push ⟨within, settled params body⟩) trivial
  · have no : ∀ params body home, v ≠ .closure params body home := fun params body home same =>
      made ⟨params, body, home, same⟩
    rw [evalTree_plain _ _ no]
    refine .push abreast ⟨flat, ?_⟩
    exact fun params body f same => absurd same (no params body (some f))

end Levels

section Trees

variable {host : Host σ} {levels : Nat} {scope : FrameId}

mutual

theorem matched_tree (fewer : ∀ level, levels = level + 1 → Matching host level)
    (enough : invocationLimit ≤ stand.place.depth + levels) (root : scope ∈ stand.roots) :
    ∀ (t : Tree) {m m' : Machine σ} {kept : List Value}, t.Within .flat →
    Abreast stand kept below below' m m' → Matched stand kept below below' Quiet
      (evalTree host (inside host levels) t scope m) (evalTree host (inside host levels) t scope m')
  | .literal v, m, m', kept, flat, abreast => by
      rw [Tree.Within] at flat
      exact matched_literal flat root abreast
  | .reference path, m, m', kept, flat, abreast => by
      rw [Tree.Within] at flat
      rw [evalTree]
      exact (matched_resolve abreast host flat root).bind fun v n n' abreast suits =>
        .push abreast suits
  | .call head args, m, m', kept, flat, abreast => by
      rw [Tree.Within] at flat
      by_cases sequence : head = .sequence
      · subst sequence
        rw [evalTree]
        exact matched_trees fewer enough root args flat.2 abreast
      · obtain ⟨above, stack, stack', raised⟩ := abreast.raise
        have ran := matched_trees fewer enough root args flat.2 raised
        rw [evalTree_applied host _ sequence, Run.bind_of_ok Run.height_eq,
          Run.bind_of_ok Run.height_eq, stack, stack']
        refine .lower (ran.bind fun _ n n' abreast _ => ?_)
        obtain ⟨values, suits, taken, taken', abreast⟩ := abreast.splitOff
        rw [Run.bind_of_ok taken, Run.bind_of_ok taken']
        exact matched_dispatch fewer enough root abreast fun v mem =>
          ⟨(suits v mem).within, (suits v mem).settled⟩

theorem matched_trees (fewer : ∀ level, levels = level + 1 → Matching host level)
    (enough : invocationLimit ≤ stand.place.depth + levels) (root : scope ∈ stand.roots) :
    ∀ (ts : List Tree) {m m' : Machine σ} {kept : List Value}, Tree.AllWithin .flat ts →
    Abreast stand kept below below' m m' → Matched stand kept below below' Quiet
      (evalTrees host (inside host levels) ts scope m)
    (evalTrees host (inside host levels) ts scope m')
  | [], _, _, _, _, abreast => .pure abreast trivial
  | t :: rest, m, m', kept, ⟨first, others⟩, abreast => by
      rw [evalTrees]
      exact (matched_tree fewer enough root t first abreast).bind fun _ n n' abreast _ =>
        matched_trees fewer enough root rest others abreast

end

end Trees

/-- However many levels there are, machines abreast that run a tree end in the same way. -/
theorem matching (host : Host σ) (levels : Nat) : Matching host levels := by
  induction levels with
  | zero =>
      intro stand kept below below' m m' scope t flat root enough abreast
      have fewer : ∀ level, 0 = level + 1 → Matching host level := fun _ same => nomatch same
      exact matched_tree fewer enough root t flat abreast
  | succ levels ih =>
      intro stand kept below below' m m' scope t flat root enough abreast
      have fewer : ∀ level, levels + 1 = level + 1 → Matching host level := by
        rintro _ ⟨⟩
        exact ih
      exact matched_tree fewer enough root t flat abreast

/-! ## The stack discipline -/

/-- A run ends in the same way over two stacks: with the same result or the same fault, the same
values on top of each, and the same frames.  It can be run there again. -/
structure EndsAlike (r : Run σ α) (m : Machine σ) (below below' : List Value)
    (ending : Except Fault α) (above : List Value) (n n' : Machine σ) : Prop where
  left : r (m.withStack below) = Run.ofExcept ending n
  right : r (m.withStack below') = Run.ofExcept ending n'
  stack : n.session.stack = above ++ below
  stack' : n'.session.stack = above ++ below'
  common : n'.common = n.common
  roots : n.roots = m.roots ∧ n'.roots = m.roots
  flat : n.IsFlat ∧ n'.IsFlat

theorem Run.ofExcept_inj {ending ending' : Except Fault α}
    (same : (Run.ofExcept ending m : EStateM.Result Stop (Machine σ) α) = Run.ofExcept ending' m') :
    m = m' := by
  cases ending <;> cases ending' <;> cases same <;> rfl

/-- What ends the same way between any two stacks leaves machines that are fit for the next run. -/
theorem EndsAlike.of_matched {r : Run σ α}
    (matched : ∀ below below',
      Matched ⟨m.session.place, m.common.held, m.roots, List.Subset.refl _⟩ [] below
      below' Quiet (r (m.withStack below)) (r (m.withStack below'))) (below below' : List Value) :
    ∃ ending above n n', EndsAlike r m below below' ending above n n' := by
  have ends : ∀ below below', ∃ (ending : Except Fault α) (n n' : Machine σ),
      r (m.withStack below) = Run.ofExcept ending n ∧
      r (m.withStack below') = Run.ofExcept ending n' ∧
      Abreast ⟨m.session.place, m.common.held, m.roots, List.Subset.refl _⟩
        [] below below' n n' := by
    intro below below'
    have ran := matched below below'
    generalize r (m.withStack below) = x, r (m.withStack below') = y at ran ⊢
    cases ran with
    | ok abreast _ => exact ⟨.ok _, _, _, rfl, rfl, abreast⟩
    | failed fault abreast => exact ⟨.error fault, _, _, rfl, rfl, abreast⟩
  have keeps : ∀ {below : List Value} {ending : Except Fault α} {n : Machine σ},
      r (m.withStack below) = Run.ofExcept ending n → n.IsFlat := by
    intro below ending n left
    obtain ⟨other, k, k', same, same', abreast⟩ := ends below below
    obtain rfl := Run.ofExcept_inj (left.symm.trans same)
    obtain rfl := Run.ofExcept_inj (left.symm.trans same')
    exact abreast.isFlat
  obtain ⟨ending, n, n', left, right, abreast⟩ := ends below below'
  obtain ⟨above, stack, stack', -⟩ := abreast.stack
  rw [List.append_nil] at stack stack'
  exact ⟨ending, above, n, n', left, right, stack, stack', abreast.common,
    ⟨abreast.roots_eq, abreast.roots_eq'⟩, keeps left, keeps right⟩

/-- Running a tree leaves alone what lies on the stack and does not depend on it, whether it
succeeds or fails.  What the head of a call gets is what the arguments have pushed. -/
theorem stack_discipline (host : Host σ) {t : Tree} {scope : FrameId} (tree : t.Within .flat)
    (root : scope ∈ m.roots) (flat : m.IsFlat) (below below' : List Value) :
    (∃ ending above n n', EndsAlike (evalIn host t scope) m below below' ending above n n') ∧
      ∀ head args, t = .call head args → head ≠ .sequence → ∃ ending above n n',
        EndsAlike (evalTrees host (inside host m.levels) args scope) m below below'
          ending above n n' ∧ (ending = .ok () →
            evalIn host t scope (m.withStack below) =
                dispatch host (inside host m.levels) head above.reverse scope (n.withStack below) ∧
              evalIn host t scope (m.withStack below') =
                dispatch host (inside host m.levels) head above.reverse scope
                  (n'.withStack below')) := by
  have enough : invocationLimit ≤ m.session.place.depth + m.levels := by
    unfold Machine.levels Session.place
    dsimp only
    omega
  have fewer : ∀ level, m.levels = level + 1 → Matching host level :=
    fun level _ => matching host level
  refine ⟨EndsAlike.of_matched (fun below below' => ?_) below below', ?_⟩
  · exact matched_tree fewer enough root t tree (flat.abreast below below')
  · rintro head args rfl single
    rw [Tree.Within] at tree
    obtain ⟨ending, above, n, n', ends⟩ := EndsAlike.of_matched
      (fun below below' => matched_trees fewer enough root args tree.2 (flat.abreast below below'))
      below below'
    refine ⟨ending, above, n, n', ends, ?_⟩
    rintro rfl
    have pushed : ∀ {n : Machine σ} {below : List Value}, n.session.stack = above ++ below →
        evalTrees host (inside host m.levels) args scope (m.withStack below) = .ok () n →
        evalIn host (.call head args) scope (m.withStack below) =
          dispatch host (inside host m.levels) head above.reverse scope (n.withStack below) := by
      intro n below stack ran
      have same : n = (n.withStack below).pushAll above.reverse := by
        unfold Machine.pushAll Machine.withStack
        rw [List.reverse_reverse, ← stack]
      rw [same] at ran
      exact evalTree_call host _ single ran rfl
    exact ⟨pushed ends.stack ends.left, pushed ends.stack' ends.right⟩

/-- A scope with a function of one parameter. -/
def doublingMachine : Machine Unit where
  session := .new .standard 0
  common := { Common.new () with
    store :=
      ⟨#[⟨[("double", .closure ["x"] (.op .add [.reference ⟨["x"]⟩, .reference ⟨["x"]⟩]) (some 0))],
      none⟩]⟩ }

theorem stack_discipline_doubling : ∃ ending above n n', EndsAlike
    (evalIn quiet (.invoke ⟨["double"]⟩ [.literal (.int 2)]) 0) doublingMachine [.str "below"] []
    ending above n n' := by
  have flat : doublingMachine.IsFlat := by
    refine ⟨.of_frames ?_, ?_, ?_⟩
    · simp [doublingMachine, Value.Within, Tree.op, Tree.Within, Tree.AllWithin,
        Head.Within, Kit.flat]
    · intro f mem
      rw [List.mem_singleton.mp (show f ∈ [0] from mem)]
      exact Nat.one_pos
    · intro f alive name params body home found
      obtain rfl : f = 0 := Nat.lt_one_iff.mp (Store.lt_of_local? found)
      obtain ⟨before, after, bindings, -⟩ := List.lookup_eq_some_iff.mp found
      have among : (name, Value.closure params body (some home)) ∈
          doublingMachine.common.store.bindings 0 := by
        rw [bindings]
        exact List.mem_append_right _ List.mem_cons_self
      cases List.mem_singleton.mp among
      exact .inr (.inl (Store.alive_iff.mpr ⟨0, List.mem_cons_self, Store.mem_chain_self _ _⟩))
  exact (stack_discipline quiet (by
      simp [Tree.invoke, Tree.Within, Tree.AllWithin, Head.Within, Value.Within,
        Kit.flat, Kit.level])
    (List.mem_singleton_self 0) flat [.str "below"] []).1

/-- Whether a run failed because the name was unbound. -/
def isUnbound (name : String) : EStateM.Result Stop (Machine σ) α → Bool
  | .error (.failed (.unbound other)) _ => other == name
  | _ => false

/-- Whether a run had a result. -/
def succeeds : EStateM.Result Stop (Machine σ) α → Bool
  | .ok _ _ => true
  | .error _ _ => false

/-- A scope that binds the empty name, which is the root of the empty path. -/
def namelessMachine : Machine Unit where
  session := .new .standard 0
  common := { Common.new () with store := ⟨#[⟨[("", .int 1)], none⟩]⟩ }

/-- A function that was made in the frame 1, by scripts of a session that is gone. -/
def stranger : Value := .closure [] (.reference ⟨["x"]⟩) (some 1)

/-- A session that has captured the frame 2, which is below the frame 1, and as many others as it
may before it looks for unused ones. -/
def crowdedMachine : Machine Unit where
  session := { Session.new .standard 0 with captured := 2 :: List.range' 3 62 }
  common := { Common.new () with
    store := ⟨#[⟨[("c", stranger)], none⟩, ⟨[("x", .int 1)], some 0⟩, ⟨[], some 1⟩] ++
      Array.replicate 62 ⟨[], none⟩⟩ }

/-- Makes a function and calls the stranger. -/
def makesThenCalls : Tree := .sequence
  [.literal (.closure [] (.sequence []) none), .invoke ⟨["c"]⟩ []]

/-- A function that was made in the frame 2. -/
def companion : Value := .closure [] (.sequence []) (some 2)

/-- There is no discipline where the empty path names something, as a reference through it breaks
the run, or where a home is alive only because the scope below it is captured: a function that lies
on the stack keeps it alive for the stranger, and without that function the sweep lets it go. -/
theorem stack_undisciplined :
    ((Tree.reference ⟨[]⟩).Within .level ∧ namelessMachine.common.store.Within .level ∧
      evalIn quiet (.reference ⟨[]⟩) 0 namelessMachine = .error .broken namelessMachine) ∧
    (makesThenCalls.Within .level ∧ crowdedMachine.common.store.Within .level ∧
      crowdedMachine.IsSound ∧
      succeeds (evalIn quiet makesThenCalls 0 (crowdedMachine.withStack [companion])) = true ∧
      isUnbound "x" (evalIn quiet makesThenCalls 0 (crowdedMachine.withStack [])) = true) := by
  refine ⟨⟨?_, .of_frames ?_, ?_⟩, ?_, .of_frames ?_, ?_, ?_, ?_⟩
  · simp [Tree.Within, Kit.level]
  · simp [namelessMachine, Value.Within]
  · have named : lookup "" 0 namelessMachine = .ok (.int 1) namelessMachine := by
      rw [lookup, Run.bind_of_ok Run.get_eq, Store.get?_of_chain (Store.chain_of_none rfl)]
      rfl
    have resolved : resolve quiet ⟨[]⟩ 0 namelessMachine = .error .broken namelessMachine := by
      rw [resolve]
      exact Run.bind_of_ok named
    rw [evalIn, evalTree]
    exact Run.bind_of_error resolved
  · simp [makesThenCalls, Tree.sequence, Tree.invoke, Tree.Within, Tree.AllWithin, Head.Within,
      Value.Within, Kit.level]
  · intro frame mem
    rcases Array.mem_append.mp mem with listed | more
    · simp only [List.mem_toArray, List.mem_cons, List.not_mem_nil, or_false] at listed
      rcases listed with rfl | rfl | rfl <;>
        simp [stranger, Value.Within, Tree.Within, Kit.level]
    · rw [(Array.mem_replicate.mp more).2]
      exact List.forall_mem_nil _
  · change ∀ f ∈ crowdedMachine.owners, f < crowdedMachine.common.store.frames.size
    decide +kernel
  · decide +kernel
  · decide +kernel

end PeerScript
