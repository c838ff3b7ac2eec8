import PeerScript.Proofs.Twins

/-!
# What twins run

Twins that run the same tree end in the same way and are twins again: `parallel_inside`.  The proof
goes through the tree, and through the invocations by the number of levels that may still nest, of
which there are enough for every call below the limit.

A call begins by looking at how much lies on the stack, which is not the same for both.  But all
that it does with the number is to take off what its arguments have pushed, and these are run by
twins that may have everything below.
-/

set_option autoImplicit false

namespace PeerScript

variable {σ α β : Type} {place : Place} {ground ground' : Ground σ} {m m' : Machine σ}
  {right : Machine σ → Machine σ → α → Prop} {other : Machine σ → Machine σ → β → Prop}

namespace Parallel

/-- What lay on the stacks before is below, or above what is below. -/
theorem lower (before : Twins place ground ground' m m') {r r' : EStateM.Result Stop (Machine σ) α}
    (h : Parallel place m.ground m'.ground right r r') :
    Parallel place ground ground' right r r' := by
  obtain ⟨above, stack, stack'⟩ := before.shared
  have lower : ∀ {n n' : Machine σ}, Twins place m.ground m'.ground n n' →
      Twins place ground ground' n n' := by
    intro n n' twins
    obtain ⟨more, left, right⟩ := twins.shared
    have left : n.session.stack = more ++ m.session.stack := left
    have right : n'.session.stack = more ++ m'.session.stack := right
    exact { twins with
      shared := ⟨more ++ above, by rw [left, stack, List.append_assoc],
        by rw [right, stack', List.append_assoc]⟩
      world_left := twins.world_left.trans before.world_left
      world_right := twins.world_right.trans before.world_right }
  cases h with
  | ok twins known => exact .ok (lower twins) known
  | failed fault twins => exact .failed fault (lower twins)

theorem bind {r r' : Run σ α} {f f' : α → Run σ β}
    (first : Parallel place ground ground' right (r m) (r' m'))
    (next : ∀ a n n', Twins place ground ground' n n' → right n n' a →
      Parallel place ground ground' other (f a n) (f' a n')) :
    Parallel place ground ground' other ((r >>= f) m) ((r' >>= f') m') := by
  change Parallel place ground ground' other (EStateM.bind r f m) (EStateM.bind r' f' m')
  unfold EStateM.bind
  generalize r m = x, r' m' = y at first ⊢
  cases first with
  | ok twins known => exact next _ _ _ twins known
  | failed fault twins => exact .failed fault twins

theorem pure {a : α} (twins : Twins place ground ground' m m') (known : right m m' a) :
    Parallel place ground ground' right ((Pure.pure a : Run σ α) m) ((Pure.pure a : Run σ α) m') :=
  .ok twins known

theorem fail {fault : Fault} (twins : Twins place ground ground' m m') :
    Parallel place ground ground' right (Run.fail fault m) (Run.fail fault m') :=
  .failed fault twins

theorem push {v : Value} (twins : Twins place ground ground' m m') (fits : BothFit m m' v) :
    Parallel place ground ground' Quiet (Run.push v m) (Run.push v m') :=
  .ok (twins.push fits) trivial

end Parallel

/-! ## Names -/

section Names

variable {scope : FrameId} (twins : Twins place ground ground' m m') (enters : place.Enters scope)

include twins enters

/-- A name means the same to both, and nothing else happens. -/
theorem parallel_lookup {name : String} (shown : ¬ IsTelling name) :
    Parallel place ground ground' (fun n n' v => (n = m ∧ n' = m') ∧ BothFit m m' v)
      (lookup name scope m) (lookup name scope m') := by
  have found : ∀ {f : FrameId} {v : Value}, place.Enters f →
      m.common.store.get? f name = some v → BothFit m m' v := fun enters found =>
    ⟨twins.left.get? (twins.enters_left enters).keeps shown found,
      twins.right.get? (twins.enters_right enters).keeps shown (twins.store ▸ found)⟩
  rw [lookup_eq, lookup_eq, twins.store, twins.ambient_eq.1, twins.ambient_eq.2]
  cases here : m.common.store.get? scope name with
  | some v => exact .pure twins ⟨⟨rfl, rfl⟩, found enters here⟩
  | none =>
      cases there : m.common.store.get? place.ambient name with
      | some v => exact .pure twins ⟨⟨rfl, rfl⟩, found List.mem_cons_self there⟩
      | none => exact .fail twins

omit enters in
/-- Nothing that is calm has members. -/
theorem parallel_members (host : Host σ) {v : Value} (fits : BothFit m m' v) (names : List String) :
    Parallel place ground ground' BothFit (membersOf host v names m)
      (membersOf host v names m') := by
  cases names with
  | nil => exact .pure twins fits
  | cons name rest =>
      have none : ∀ n : Machine σ, member host v name n =
          Run.fail (.unknownMember v.typeName name) n := by
        intro n
        cases v with
        | object o => exact nomatch fits.left.good.plain
        | _ => rfl
      have failed : Parallel place ground ground' (fun _ _ _ => False) (member host v name m)
          (member host v name m') := by
        rw [none, none]
        exact .fail twins
      exact failed.bind fun _ _ _ _ => False.elim

theorem parallel_resolve (host : Host σ) {path : Path} (named : path.segments ≠ [])
    (shown : ¬ IsTelling path.root) : Parallel place ground ground' BothFit
      (resolve host path scope m) (resolve host path scope m') := by
  refine (parallel_lookup twins enters shown).bind ?_
  rintro v _ _ twins ⟨⟨rfl, rfl⟩, fits⟩
  obtain ⟨_ | ⟨first, others⟩⟩ := path
  · exact absurd rfl named
  · exact parallel_members twins host fits others

end Names

/-! ## Builtins -/

/-- What may be pushed behind a builtin. -/
abbrev BothFit? (m m' : Machine σ) (v : Option Value) : Prop := ∀ w ∈ v, BothFit m m' w

theorem bothFit_str (s : String) : BothFit m m' (.str s) :=
  Twins.bothFit (Value.isCalm_of_inert (.str s) rfl) rfl

theorem bothFit_count (n : Nat) : BothFit m m' (Builtin.count n) :=
  Twins.bothFit (Value.isCalm_of_inert (.int _) rfl) rfl

theorem Value.IsCalm.plainText_eq {v : Value} (calm : v.IsCalm) {e e' : Encoder}
    (registry : e.registry = e'.registry) : Builtin.plainText e v = Builtin.plainText e' v := by
  cases v with
  | str s => rfl
  | _ => exact calm.encode_eq registry

theorem parallel_single (b : Builtin) (twins : Twins place ground ground' m m') {args : List Value}
    (fits : ∀ v ∈ args, BothFit m m' v) : Parallel place ground ground' (fun _ _ v => v.IsCalm)
      (b.single args m) (b.single args m') := by
  unfold Builtin.single
  split
  · exact .pure twins (fits _ (List.mem_singleton_self _)).left.good
  · exact .fail twins

theorem parallel_builtin (host : Host σ) {b : Builtin} (calm : b.looksDown = false)
    (twins : Twins place ground ground' m m') {args : List Value}
    (fits : ∀ v ∈ args, BothFit m m' v) :
    Parallel place ground ground' BothFit? (b.run host args m) (b.run host args m') := by
  have quiet : ∀ {n n' : Machine σ}, Twins place ground ground' n n' →
      Parallel place ground ground' BothFit? ((pure none : Run σ (Option Value)) n)
        ((pure none : Run σ (Option Value)) n') := fun twins => .pure twins nofun
  have tells : ∀ {n n' : Machine σ} {v : Value}, Twins place ground ground' n n' → BothFit n n' v →
      Parallel place ground ground' BothFit? ((pure (some v) : Run σ (Option Value)) n)
        ((pure (some v) : Run σ (Option Value)) n') := fun twins fits =>
    .pure twins fun _ same => Option.some.inj same ▸ fits
  have registry : ∀ {n n' : Machine σ}, Twins place ground ground' n n' →
      (host.encoder n).registry = (host.encoder n').registry := fun twins =>
    twins.registry_eq.1.trans twins.registry_eq.2.symm
  cases b with
  | depth | drop | dup | swap | clear => exact nomatch calm
  | assert =>
      change Parallel place ground ground' BothFit?
        ((if args.isEmpty then Run.fail (Builtin.wrongCount .assert 1 args)
          else if args.all Value.truthy then pure none else Run.fail .assertionFailed :
            Run σ (Option Value)) m)
        ((if args.isEmpty then Run.fail (Builtin.wrongCount .assert 1 args)
          else if args.all Value.truthy then pure none else Run.fail .assertionFailed :
            Run σ (Option Value)) m')
      split
      · exact .fail twins
      · split
        · exact quiet twins
        · exact .fail twins
  | print => exact quiet (twins.printed _ _)
  | len =>
      refine (parallel_single .len twins fits).bind fun v n n' twins _ => ?_
      split
      · exact tells twins (bothFit_count _)
      · exact tells twins (bothFit_count _)
      · exact .fail twins
  | str =>
      refine (parallel_single .str twins fits).bind fun v n n' twins calm => ?_
      change Parallel place ground ground' BothFit?
        ((pure (some (.str (Builtin.plainText (host.encoder n) v))) : Run σ (Option Value)) n)
        ((pure (some (.str (Builtin.plainText (host.encoder n') v))) : Run σ (Option Value)) n')
      rw [calm.plainText_eq (registry twins)]
      exact tells twins (bothFit_str _)
  | type =>
      exact (parallel_single .type twins fits).bind fun v n n' twins _ =>
        tells twins (bothFit_str _)

/-! ## Invocations -/

/-- Twins that run a tree end in the same way. -/
def Agreeing (host : Host σ) (levels : Nat) : Prop :=
  ∀ {place : Place} {ground ground' : Ground σ} {m m' : Machine σ} {scope : FrameId} {t : Tree},
    t.IsCalm → place.Enters scope → invocationLimit ≤ place.depth + levels →
    Twins place ground ground' m m' →
    Parallel place ground ground' Quiet (evalTree host (inside host levels) t scope m)
      (evalTree host (inside host levels) t scope m')

section Levels

variable {host : Host σ} {levels : Nat} {scope : FrameId}

variable (fewer : ∀ level, levels = level + 1 → Agreeing host level)
  (enough : invocationLimit ≤ place.depth + levels)

include fewer enough

/-- The body of a function runs in a new frame, if one more invocation may nest. -/
theorem parallel_body {body : Tree} (calm : body.IsCalm) {parent : FrameId} (kept : m.Keeps parent)
    (kept' : m'.Keeps parent) {bindings : List (String × Value)}
    (twins : Twins place ground ground' m m') (fits : ∀ b ∈ bindings, BothFit m m' b.2) :
    Parallel place ground ground' Quiet
      ((newFrame parent bindings >>= fun frame =>
        invocation (inside host levels) fun level => holding frame (level.run body frame)) m)
      ((newFrame parent bindings >>= fun frame =>
        invocation (inside host levels) fun level => holding frame (level.run body frame)) m') := by
  have depth : (m.framed parent bindings).session.depth = place.depth := twins.depth_eq.1
  have depth' : (m'.framed parent bindings).session.depth = place.depth := twins.depth_eq.2
  rw [inFrame_eq, inFrame_eq, invocation_eq, invocation_eq, depth, depth']
  by_cases deep : invocationLimit ≤ place.depth
  · rw [if_pos deep, if_pos deep]
    exact .fail (twins.framed parent fits)
  · rw [if_neg deep, if_neg deep]
    cases levels with
    | zero => exact absurd enough deep
    | succ levels =>
        have called := twins.called kept kept' fits
        have ran := fewer levels rfl calm (List.mem_cons_of_mem _ List.mem_cons_self)
          (show invocationLimit ≤ (place.inFrame m.common.store.frames.size).depth + levels by
            unfold Place.inFrame
            dsimp only
            omega) called
        have same : m'.common.store.frames.size = m.common.store.frames.size := by rw [twins.store]
        rw [same] at ran ⊢
        change Parallel place ground ground' Quiet
          (counted (holding m.common.store.frames.size
            (evalTree host (inside host levels) body m.common.store.frames.size))
            (m.framed parent bindings))
          (counted (holding m.common.store.frames.size
            (evalTree host (inside host levels) body m.common.store.frames.size))
            (m'.framed parent bindings))
        rw [counted_eq, counted_eq, holding_eq, holding_eq]
        generalize evalTree host (inside host levels) body m.common.store.frames.size
            ((m.framed parent bindings).enter.hold m.common.store.frames.size) = x,
          evalTree host (inside host levels) body m.common.store.frames.size
            ((m'.framed parent bindings).enter.hold m.common.store.frames.size) = y at ran ⊢
        cases ran with
        | ok twins _ => exact .ok twins.back trivial
        | failed fault twins => exact .failed fault twins.back

theorem parallel_call {callee : Value} {name : String} {args : List Value}
    (enters : place.Enters scope) (twins : Twins place ground ground' m m')
    (callable : BothFit m m' callee) (fits : ∀ v ∈ args, BothFit m m' v) :
    Parallel place ground ground' Quiet
      (callValue host (inside host levels) callee name args scope m)
      (callValue host (inside host levels) callee name args scope m') := by
  cases callee with
  | native b =>
      refine (parallel_builtin host (callable.left.good.native b rfl) twins fits).bind
        fun v n n' twins fits => ?_
      cases v with
      | none => exact .pure twins trivial
      | some v => exact .push twins (fits v rfl)
  | closure params body home =>
      rw [callValue_closure, callValue_closure, callable.left.housed.around_eq,
        callable.right.housed.around_eq]
      split
      · have calm := callable.left.good.bodyCalm
        have kept := callable.left.housed.keeps_around (twins.enters_left enters)
        have kept' := callable.right.housed.keeps_around (twins.enters_right enters)
        have among : ∀ b ∈ params.zip args, b.2 ∈ args := fun b mem =>
          (List.of_mem_zip mem).2
        split
        · -- the arguments are put back
          have kept : (m.pushAll args).Keeps (home.getD scope) := kept
          have kept' : (m'.pushAll args).Keeps (home.getD scope) := kept'
          refine parallel_body fewer enough calm kept kept' (twins.pushAll fits) fun b mem => ?_
          have fit := fits _ (among b mem)
          exact ⟨⟨fit.left.housed, fit.left.good⟩, ⟨fit.right.housed, fit.right.good⟩⟩
        · exact parallel_body fewer enough calm kept kept' twins fun b mem => fits _ (among b mem)
      · exact .failed _ twins
  | _ => exact .fail twins

theorem parallel_path {path : Path} (named : path.segments ≠ []) (shown : ¬ IsTelling path.root)
    {args : List Value} (enters : place.Enters scope) (twins : Twins place ground ground' m m')
    (fits : ∀ v ∈ args, BothFit m m' v) : Parallel place ground ground' Quiet
      (callPath host (inside host levels) path args scope m)
      (callPath host (inside host levels) path args scope m') := by
  obtain ⟨segments⟩ := path
  rcases segments.eq_nil_or_concat with rfl | ⟨receiver, last, rfl⟩
  · exact absurd rfl named
  unfold callPath
  simp only [List.concat_eq_append, List.getLast?_append, List.getLast?_singleton, Option.some_or,
    List.dropLast_concat]
  cases receiver with
  | nil =>
      refine (parallel_lookup twins enters shown).bind ?_
      rintro callee _ _ twins ⟨⟨rfl, rfl⟩, callable⟩
      exact parallel_call fewer enough enters twins callable fits
  | cons first others =>
      have named : (⟨first :: others⟩ : Path).segments ≠ [] := List.cons_ne_nil _ _
      have resolved := parallel_resolve twins enters host named shown
      refine resolved.bind fun v n n' twins fits => ?_
      cases v with
      | object o => exact nomatch fits.left.good.plain
      | _ => exact .fail twins

/-! ## Trees -/

theorem parallel_dispatch {head : Head} (source : head.IsSource)
    (shown : ∀ path, head = .invoke path → ¬ IsTelling path.root) {args : List Value}
    (enters : place.Enters scope) (twins : Twins place ground ground' m m')
    (fits : ∀ v ∈ args, BothFit m m' v) : Parallel place ground ground' Quiet
      (dispatch host (inside host levels) head args scope m)
      (dispatch host (inside host levels) head args scope m') := by
  have calm : ∀ v ∈ args, v.IsCalm := fun v mem => (fits v mem).left.good
  cases head with
  | sequence => exact .ok (twins.pushAll fits) trivial
  | bind name =>
      unfold dispatch
      cases last : args.getLast? with
      | none => exact .fail twins
      | some v =>
          have fit := fits v (List.mem_of_getLast? last)
          have rest := twins.pushAll fun v mem => fits v (args.dropLast_subset mem)
          exact .ok
            (rest.bind ⟨⟨fit.left.housed, fit.left.good⟩, ⟨fit.right.housed, fit.right.good⟩⟩
            scope name) trivial
  | op operator =>
      have computes : Parallel place ground ground' BothFit (Run.ofExcept (operator.apply args) m)
          (Run.ofExcept (operator.apply args) m') := by
        cases computed : operator.apply args with
        | error fault => exact .fail twins
        | ok v =>
            exact .pure twins (Twins.bothFit (Operator.isCalm_apply calm computed)
              (Operator.data_apply computed).inert)
      exact computes.bind fun _ _ _ twins fit => .push twins fit
  | list =>
      exact .push twins (Twins.bothFit
        (Value.isCalm_of_inert (.list (Value.allAlike_of_calm calm)) rfl) rfl)
  | construct typeName =>
      have step : ∀ n : Machine σ, dispatch host (inside host levels)
          (.construct typeName) args scope n =
          (match n.session.registry.decode typeName args n.common.serial with
          | .error fault => Run.fail fault
          | .ok v => do
              set (n.numbered (n.common.serial + 1))
              Run.push v : Run σ Unit) n := by
        intro n
        have whole : dispatch host (inside host levels) (.construct typeName) args scope n =
            (Run.ofExcept (n.session.registry.decode typeName args n.common.serial) >>= fun v => do
              set (n.numbered (n.common.serial + 1))
              Run.push v : Run σ Unit) n := rfl
        rw [whole]
        cases n.session.registry.decode typeName args n.common.serial <;> rfl
      rw [step, step, twins.registry_eq.1, twins.registry_eq.2, twins.serial]
      cases decoded : place.registry.decode typeName args m.common.serial with
      | error fault => exact .fail twins
      | ok v =>
          have calm := twins.natural.isCalm_decode calm decoded
          obtain ⟨kind, fields, rfl⟩ := Registry.handle_of_decode decoded
          exact .ok ((twins.numbered _).push (Twins.bothFit calm rfl)) trivial
  | invoke path =>
      exact parallel_path fewer enough source (shown path rfl) enters twins fits

omit fewer enough in
theorem parallel_literal {v : Value} (calm : (Tree.literal v).IsCalm) (enters : place.Enters scope)
    (twins : Twins place ground ground' m m') : Parallel place ground ground' Quiet
      (evalTree host (inside host levels) (.literal v) scope m)
      (evalTree host (inside host levels) (.literal v) scope m') := by
  obtain ⟨plain, source⟩ := calm
  cases plain with
  | literal plain =>
      by_cases made : ∃ params body home, v = .closure params body home
      · obtain ⟨params, body, home, rfl⟩ := made
        rw [evalTree]
        have calm : (Value.closure params body (some scope)).IsCalm := by
          cases plain with
          | closure body _ =>
              refine ⟨.closure body (.some rfl), nofun, ?_⟩
              rintro _ _ _ ⟨⟩
              exact source
        have housed : ∀ {n : Machine σ}, scope ∈ (n.capture scope).session.captured →
            (n.capture scope).Fits Calm (.closure params body (some scope)) := fun captured =>
          ⟨by
            rintro _ _ _ ⟨⟩
            exact captured, calm⟩
        exact .ok ((twins.capture enters).push
          ⟨housed (twins.left.capture (twins.enters_left enters)).2,
            housed (twins.right.capture (twins.enters_right enters)).2⟩) trivial
      · have no : ∀ params body home, v ≠ .closure params body home := fun params body home same =>
          made ⟨params, body, home, same⟩
        rw [evalTree_plain _ _ no]
        have inert : v.isInvocable = false := by
          cases v with
          | closure params body home => exact absurd rfl (no params body home)
          | native b => exact source.elim
          | _ => rfl
        exact .push twins (Twins.bothFit (Value.isCalm_of_inert plain inert) inert)

end Levels

section Trees

variable {host : Host σ} {levels : Nat} {scope : FrameId}

mutual

theorem parallel_tree (fewer : ∀ level, levels = level + 1 → Agreeing host level)
    (enough : invocationLimit ≤ place.depth + levels) :
    ∀ (t : Tree) {m m' : Machine σ} {ground ground' : Ground σ}, t.IsCalm →
    place.Enters scope → Twins place ground ground' m m' → Parallel place ground ground' Quiet
      (evalTree host (inside host levels) t scope m) (evalTree host (inside host levels) t scope m')
  | .literal v, m, m', ground, ground', calm, enters, twins =>
      parallel_literal calm enters twins
  | .reference path, m, m', ground, ground', calm, enters, twins => by
      obtain ⟨plain, source⟩ := calm
      cases plain with
      | reference shown =>
          rw [evalTree]
          exact (parallel_resolve twins enters host source shown).bind fun v n n' twins fits =>
            .push twins fits
  | .call head args, m, m', ground, ground', calm, enters, twins => by
      obtain ⟨plain, source, sources⟩ := calm
      cases plain with
      | call shown plain =>
          by_cases sequence : head = .sequence
          · subst sequence
            rw [evalTree]
            exact parallel_trees fewer enough args plain sources enters twins
          · have ran := parallel_trees fewer enough args plain sources enters twins.raise
            rw [evalTree_applied host _ sequence, Run.bind_of_ok Run.height_eq,
              Run.bind_of_ok Run.height_eq]
            refine .lower twins (ran.bind fun _ n n' twins _ => ?_)
            obtain ⟨values, fits, taken, taken', twins⟩ := twins.splitOff
            have step :=
              Run.bind_of_ok (f := fun vs => dispatch host (inside host levels) head vs scope) taken
            have step' :=
              Run.bind_of_ok (f := fun vs => dispatch host (inside host levels) head vs scope)
              taken'
            rw [Machine.ground] at step step'
            rw [step, step']
            exact parallel_dispatch fewer enough source shown enters twins fits

theorem parallel_trees (fewer : ∀ level, levels = level + 1 → Agreeing host level)
    (enough : invocationLimit ≤ place.depth + levels) :
    ∀ (ts : List Tree) {m m' : Machine σ} {ground ground' : Ground σ},
    Tree.AllAlike IsTelling .diagonal ts ts → Tree.AreSource ts → place.Enters scope →
    Twins place ground ground' m m' → Parallel place ground ground' Quiet
      (evalTrees host (inside host levels) ts scope m)
    (evalTrees host (inside host levels) ts scope m')
  | [], _, _, _, _, _, _, _, twins => .pure twins trivial
  | t :: rest, m, m', ground, ground', plain, ⟨source, sources⟩, enters, twins => by
      cases plain with
      | cons first others =>
          rw [evalTrees]
          exact (parallel_tree fewer enough t ⟨first, source⟩ enters twins).bind
            fun _ n n' twins _ =>
            parallel_trees fewer enough rest others sources enters twins

end

end Trees

/-- However many levels there are, twins that run a tree end in the same way. -/
theorem agreeing (host : Host σ) (levels : Nat) : Agreeing host levels := by
  induction levels with
  | zero =>
      intro place ground ground' m m' scope t calm enters enough twins
      have fewer : ∀ level, 0 = level + 1 → Agreeing host level := fun _ same => nomatch same
      exact parallel_tree fewer enough t calm enters twins
  | succ levels ih =>
      intro place ground ground' m m' scope t calm enters enough twins
      have fewer : ∀ level, levels + 1 = level + 1 → Agreeing host level := by
        rintro _ ⟨⟩
        exact ih
      exact parallel_tree fewer enough t calm enters twins

end PeerScript
