import Mathlib.Logic.Function.Iterate
import PeerScript.Proofs.Moves.Tasks
import PeerScript.Proofs.Underrun

/-!
# Every run ends

`evalTree` gets its levels handed down, one for each invocation that may still nest, and could not
go on without them.  Here a run goes on for as long as there is something to do, and nothing is
handed down: `step` does one thing and says what is next, and what waits for it to come back is on a
stack.  A body may be larger than the tree that calls it, and only the depth of the machine bounds
how often that happens.

`carried` says that the steps come to an end all the same, and in what the evaluator says.  They go
the way of the evaluator, level by level; that the levels are enough is what the depth of the
machine is for.
-/

set_option autoImplicit false

namespace PeerScript

open Run

variable {σ α β : Type} {m m' : Machine σ}

/-! ## Steps -/

/-- What a machine does next: a task, or handing back what has come of one. -/
inductive Control (σ : Type) where
  | task (task : Task σ)
  | back (result : Except Stop (Option Value))

/-- What waits until something comes back. -/
inductive Waiting (σ : Type) where
  /-- a tree, which was started at some depth -/
  | tree (t : Tree) (depth : Nat)
  /-- the trees behind the one that runs -/
  | trees (ts : List Tree) (scope : FrameId)
  /-- a head, for the values of its arguments -/
  | head (head : Head) (base : Nat) (scope : FrameId)
  /-- the value of a method, which is pushed -/
  | push
  /-- the end of an invocation -/
  | leave
  /-- the end of a frame's use -/
  | letGo
  /-- the rest of a method, to which a fault is a result -/
  | resume (next : Except Fault Unit → Method σ)

/-- A machine, what it does next, and what waits for that. -/
structure Config (σ : Type) where
  control : Control σ
  waiting : List (Waiting σ)
  machine : Machine σ

/-- Goes on with the result of something that is done at once, unless it has stopped. -/
def goOn (x : EStateM.Result Stop (Machine σ) α) (waiting : List (Waiting σ))
    (next : α → Machine σ → Config σ) : Config σ :=
  match x with
  | .ok a m => next a m
  | .error stop m => ⟨.back (.error stop), waiting, m⟩

/-- Hands back what has come of a task. -/
def handed (value : α → Option Value) (x : EStateM.Result Stop (Machine σ) α)
    (waiting : List (Waiting σ)) : Config σ :=
  goOn x waiting fun a m => ⟨.back (.ok (value a)), waiting, m⟩

/-- Counts one more invocation, unless as many as allowed are under way. -/
def admitted : Run σ Unit := fun m =>
  if invocationLimit ≤ m.session.depth then .error (.failed (.recursionLimit invocationLimit)) m
  else .ok () m.enter

section Steps

variable (host : Host σ)

/-- Starts a tree. -/
def startTree (waiting : List (Waiting σ)) (m : Machine σ) : Tree → FrameId → Config σ
  | .call .sequence args, scope =>
      ⟨.task (.trees args scope), .tree (.call .sequence args) m.session.depth :: waiting, m⟩
  | .call head args, scope =>
      ⟨.task (.trees args scope),
        .head head m.session.stack.length scope :: .tree (.call head args) m.session.depth ::
        waiting, m⟩
  -- a leaf is done at once, and no other tree runs inside of it
  | leaf, scope => handed (fun _ => none) (evalTree host none leaf scope m) waiting

/-- Starts calling a value. -/
def startCall (waiting : List (Waiting σ)) (m : Machine σ) (callee : Value) (name : String)
    (args : List Value) (scope : FrameId) : Config σ :=
  match callee with
  | .closure params body home =>
      if params.isEmpty ∨ params.length = args.length then
        let frame := m.common.store.frames.size
        let pushed := if params.isEmpty then m.pushAll args else m
        goOn (admitted (pushed.framed (m.around home scope) (params.zip args))) waiting fun _ m =>
          ⟨.task (.tree body frame), .letGo :: .leave :: waiting, m.hold frame⟩
      else ⟨.back (.error (.failed (.arity name params.length args.length))), waiting, m⟩
  | other => handed (fun _ => none) (callValue host none other name args scope m) waiting

/-- Starts calling what a path names. -/
def startPath (waiting : List (Waiting σ)) (m : Machine σ) (path : Path) (args : List Value)
    (scope : FrameId) : Config σ :=
  match path.segments.getLast?, path.segments.dropLast with
  | none, _ => ⟨.back (.error (.failed (.unbound path.render))), waiting, m⟩
  | some name, [] =>
      goOn (lookup name scope m) waiting fun callee m =>
        ⟨.task (.call callee name args scope), waiting, m⟩
  | some method, receiver =>
      goOn (resolve host ⟨receiver⟩ scope m) waiting fun v m =>
        match v with
        | .object o =>
            goOn (admitted m) (.push :: waiting) fun _ m =>
              ⟨.task (.method (host.method o method args)), .leave :: .push :: waiting, m⟩
        | other => ⟨.back (.error (.failed (.unknownMember other.typeName method))), waiting, m⟩

/-- Does the first action of a method. -/
def startMethod (waiting : List (Waiting σ)) (m : Machine σ) : Method σ → Config σ
  | .finish result => handed id (ofExcept result m) waiting
  | .push v next => ⟨.task (.method next), waiting, m.push v⟩
  | .call callee name args next =>
      ⟨.task (.call callee name args m.session.ambient), .resume next :: waiting, m⟩
  | .run tree next => ⟨.task (.tree tree m.session.ambient), .resume next :: waiting, m⟩
  | .runIn tree scope next =>
      ⟨.task (.tree tree scope), .letGo :: .resume next :: waiting, m.hold scope⟩
  | .look next => ⟨.task (.method (next m.session m.whole)), waiting, m⟩
  | .change act next => ⟨.task (.method next), waiting, m.changed (act m.whole)⟩
  | .stuck => ⟨.back (.error .unfinished), waiting, m⟩

/-- Starts a task. -/
def start (waiting : List (Waiting σ)) (m : Machine σ) : Task σ → Config σ
  | .tree t scope => startTree host waiting m t scope
  | .trees [] _ => ⟨.back (.ok none), waiting, m⟩
  | .trees (t :: rest) scope => ⟨.task (.tree t scope), .trees rest scope :: waiting, m⟩
  | .call callee name args scope => startCall host waiting m callee name args scope
  | .path path args scope => startPath host waiting m path args scope
  | .method act => startMethod waiting m act

/-- Gives a head the values of its arguments. -/
def applyHead (waiting : List (Waiting σ)) (m : Machine σ) (head : Head) (values : List Value)
    (scope : FrameId) : Config σ :=
  match head with
  | .invoke path => ⟨.task (.path path values scope), waiting, m⟩
  | other => handed (fun _ => none) (dispatch host none other values scope m) waiting

/-- Takes what has come back. -/
def take (waiting : List (Waiting σ)) (m : Machine σ) :
    Waiting σ → Except Stop (Option Value) → Config σ
  | .tree _ _, result => ⟨.back result, waiting, m⟩
  | .leave, result => ⟨.back result, waiting, m.leave⟩
  | .letGo, result => ⟨.back result, waiting, m.letGo⟩
  | .resume next, .ok _ => ⟨.task (.method (next (.ok ()))), waiting, m⟩
  | .resume next, .error (.failed fault) => ⟨.task (.method (next (.error fault))), waiting, m⟩
  | .trees ts scope, .ok _ => ⟨.task (.trees ts scope), waiting, m⟩
  | .head head base scope, .ok _ =>
      goOn (splitOff base m) waiting fun values m => applyHead host waiting m head values scope
  | .push, .ok (some v) => ⟨.back (.ok none), waiting, m.push v⟩
  | .push, .ok none => ⟨.back (.ok none), waiting, m⟩
  | _, .error stop => ⟨.back (.error stop), waiting, m⟩

/-- One step.  There is none when the last result has been handed back. -/
def step : Config σ → Config σ
  | ⟨.task task, waiting, m⟩ => start host waiting m task
  | ⟨.back result, [], m⟩ => ⟨.back result, [], m⟩
  | ⟨.back result, w :: waiting, m⟩ => take host waiting m w result

/-- Steps lead from one configuration to another. -/
def Leads (c d : Config σ) : Prop := ∃ n, (step host)^[n] c = d

variable {host}

namespace Leads

variable {c d e : Config σ}

theorem refl (c : Config σ) : Leads host c c := ⟨0, rfl⟩

theorem head (h : Leads host (step host c) d) : Leads host c d := by
  obtain ⟨n, led⟩ := h
  exact ⟨n + 1, (Function.iterate_succ_apply _ _ _).trans led⟩

theorem trans (h : Leads host c d) (k : Leads host d e) : Leads host c e := by
  obtain ⟨n, led⟩ := h
  obtain ⟨l, more⟩ := k
  refine ⟨l + n, ?_⟩
  rw [Function.iterate_add_apply, led, more]

end Leads

end Steps

/-! ## Parts that are done at once -/

/-- The machine behind a run, however it has ended. -/
def behind : EStateM.Result Stop (Machine σ) α → Machine σ
  | .ok _ m => m
  | .error _ m => m

/-- Behind the run as many invocations are under way as in front of it and the objects are as they
were, and it does not wait. -/
structure Steady (r : Run σ α) : Prop where
  depth : ∀ m, (behind (r m)).session.depth = m.session.depth
  world : ∀ m, (behind (r m)).common.world = m.common.world
  ends : ∀ m m', r m ≠ .error .unfinished m'

namespace Steady

theorem bind {r : Run σ α} {f : α → Run σ β} (h : Steady r) (next : ∀ a, Steady (f a)) :
    Steady (r >>= f) := by
  constructor
  · intro m
    have first := h.depth m
    cases ran : r m with
    | ok a m₁ =>
        rw [ran] at first
        rw [bind_of_ok ran]
        exact ((next a).depth m₁).trans first
    | error stop m₁ =>
        rw [ran] at first
        rw [bind_of_error ran]
        exact first
  · intro m
    have first := h.world m
    cases ran : r m with
    | ok a m₁ =>
        rw [ran] at first
        rw [bind_of_ok ran]
        exact ((next a).world m₁).trans first
    | error stop m₁ =>
        rw [ran] at first
        rw [bind_of_error ran]
        exact first
  · intro m m' stuck
    cases ran : r m with
    | ok a m₁ =>
        rw [bind_of_ok ran] at stuck
        exact (next a).ends m₁ m' stuck
    | error stop m₁ =>
        rw [bind_of_error ran] at stuck
        cases stuck
        exact h.ends m _ ran

theorem modify {f : Machine σ → Machine σ} (depth : ∀ m, (f m).session.depth = m.session.depth)
    (world : ∀ m, (f m).common.world = m.common.world) : Steady (modify f : Run σ PUnit) :=
  ⟨depth, world, nofun⟩

theorem pure (a : α) : Steady (Pure.pure a : Run σ α) := ⟨fun _ => rfl, fun _ => rfl, nofun⟩

theorem get : Steady (get : Run σ (Machine σ)) := ⟨fun _ => rfl, fun _ => rfl, nofun⟩

theorem fail (fault : Fault) : Steady (Run.fail fault : Run σ α) :=
  ⟨fun _ => rfl, fun _ => rfl, nofun⟩

theorem push (v : Value) : Steady (Run.push v : Run σ Unit) := modify (fun _ => rfl) fun _ => rfl

theorem ofExcept (result : Except Fault α) : Steady (Run.ofExcept result : Run σ α) := by
  cases result with
  | ok a => exact pure a
  | error fault => exact fail fault

theorem pop : Steady (pop : Run σ Value) := by
  refine bind get fun m => ?_
  split
  · exact fail _
  · exact bind (modify (fun _ => rfl) fun _ => rfl) fun _ => pure _

theorem splitOff (base : Nat) : Steady (splitOff base : Run σ (List Value)) := by
  constructor
  · intro m
    rw [splitOff_eq]
    split <;> rfl
  · intro m
    rw [splitOff_eq]
    split <;> rfl
  · intro m m' stuck
    rw [splitOff_eq] at stuck
    split at stuck <;> cases stuck

theorem builtin (host : Host σ) (b : Builtin) (args : List Value) : Steady (b.run host args) := by
  have noArgs : ∀ b : Builtin, Steady (b.noArgs args : Run σ Unit) := by
    intro b
    unfold Builtin.noArgs
    split
    · exact pure ()
    · exact fail _
  have single : ∀ b : Builtin, Steady (b.single args : Run σ Value) := by
    intro b
    unfold Builtin.single
    split
    · exact pure _
    · exact fail _
  cases b with
  | assert =>
      rw [Builtin.run]
      split
      · exact fail _
      · split
        · exact pure _
        · exact fail _
  | print => exact bind get fun _ => bind (modify (fun _ => rfl) fun _ => rfl) fun _ => pure _
  | depth =>
    exact bind (noArgs _) fun _ => bind ⟨fun _ => rfl, fun _ => rfl, by rintro _ _ ⟨⟩⟩
      fun _ => pure _
  | drop => exact bind (noArgs _) fun _ => bind pop fun _ => pure _
  | dup =>
      refine bind (noArgs _) fun _ => bind get fun m => ?_
      split
      · exact fail _
      · exact pure _
  | swap =>
      refine bind (noArgs _) fun _ => bind get fun m => ?_
      split
      · exact bind (modify (fun _ => rfl) fun _ => rfl) fun _ => pure _
      · exact fail _
  | clear =>
    exact bind (noArgs _) fun _ => bind (modify (fun _ => rfl) fun _ => rfl) fun _ => pure _
  | len =>
      refine bind (single _) fun v => ?_
      split
      · exact pure _
      · exact pure _
      · exact fail _
  | str => exact bind (single _) fun _ => bind get fun _ => pure _
  | type => exact bind (single _) fun _ => pure _

theorem lookup (name : String) (scope : FrameId) : Steady (lookup name scope : Run σ Value) := by
  refine bind get fun m => ?_
  split
  · exact pure _
  · split
    · exact pure _
    · exact fail _

theorem membersOf (host : Host σ) (v : Value) (names : List String) :
    Steady (membersOf host v names) := by
  induction names generalizing v with
  | nil => exact pure v
  | cons name rest ih =>
      refine bind (bind get fun m => ?_) ih
      dsimp only
      split
      · exact pure _
      · exact fail _

theorem resolve (host : Host σ) (path : Path) (scope : FrameId) :
    Steady (resolve host path scope) := by
  refine bind (lookup _ _) fun v => ?_
  split
  · exact ⟨fun _ => rfl, fun _ => rfl, nofun⟩
  · exact membersOf host v _

/-- Heads keep the depth, unless they call something. -/
theorem dispatch (host : Host σ) {head : Head} (plain : ∀ path, head ≠ .invoke path)
    (values : List Value) (scope : FrameId) : Steady (dispatch host none head values scope) := by
  cases head with
  | sequence => exact modify (fun _ => rfl) fun _ => rfl
  | bind name =>
      rw [PeerScript.dispatch]
      split
      · exact fail _
      · exact bind (modify (fun _ => rfl) fun _ => rfl) fun _ => modify (fun _ => rfl) fun _ => rfl
  | op operator => exact bind (ofExcept _) fun _ => push _
  | list => exact push _
  | construct typeName =>
      have step : ∀ m, PeerScript.dispatch host none (.construct typeName) values scope m =
          (Run.ofExcept (m.session.registry.decode typeName values m.common.serial) >>= fun v =>
            set (m.numbered (m.common.serial + 1)) >>= fun _ => Run.push v : Run σ Unit) m :=
        fun _ => rfl
      constructor
      · intro m
        rw [step]
        cases m.session.registry.decode typeName values m.common.serial <;> rfl
      · intro m
        rw [step]
        cases m.session.registry.decode typeName values m.common.serial <;> rfl
      · intro m m' stuck
        rw [step] at stuck
        cases made : m.session.registry.decode typeName values m.common.serial <;>
          rw [made] at stuck <;> cases stuck
  | invoke path => exact absurd rfl (plain path)

theorem literal (host : Host σ) (v : Value) (scope : FrameId) :
    Steady (evalTree host none (.literal v) scope) := by
  cases v with
  | closure ps b f =>
      rw [evalTree]
      refine bind (modify (fun m => ?_) fun m => ?_) fun _ => push _
      all_goals
        unfold Machine.capture
        split
        · rfl
        · dsimp only
          split <;> rfl
  | _ =>
      rw [evalTree_plain host none (by simp)]
      exact push _

theorem reference (host : Host σ) (path : Path) (scope : FrameId) :
    Steady (evalTree host none (.reference path) scope) := by
  rw [evalTree]
  exact bind (resolve host path scope) fun _ => push _

/-- Only functions that scripts have made run for more than a step. -/
theorem callValue (host : Host σ) {callee : Value} (other : ∀ ps b f, callee ≠ .closure ps b f)
    (name : String) (args : List Value) (scope : FrameId) :
    Steady (callValue host none callee name args scope) := by
  cases callee with
  | closure ps b f => exact absurd rfl (other ps b f)
  | native b =>
      refine bind (builtin host b args) fun v => ?_
      cases v with
      | none => exact pure ()
      | some v => exact push v
  | _ => exact fail _

end Steady

/-! ## The evaluator takes these steps -/

theorem dispatch_other (host : Host σ) (inside : Option (Inside σ)) {head : Head}
    (plain : ∀ path, head ≠ .invoke path) (values : List Value) (scope : FrameId) :
    dispatch host inside head values scope = dispatch host none head values scope := by
  cases head with
  | invoke path => exact absurd rfl (plain path)
  | _ => rfl

section Carried

variable (host : Host σ)

/-- From a control on top of anything that waits, the steps lead to what a run has come to, with as
many invocations under way as the given number. -/
structure Yields (start : List (Waiting σ) → Config σ) (value : α → Option Value) (depth : Nat)
    (x : EStateM.Result Stop (Machine σ) α) : Prop where
  depth : (behind x).session.depth = depth
  leads : ∀ waiting, Leads host (start waiting) (handed value x waiting)

/-- From a task, the steps lead to what a run has come to, and no invocation is left under way. -/
def Comes (task : Task σ) (value : α → Option Value) (m : Machine σ)
    (x : EStateM.Result Stop (Machine σ) α) : Prop :=
  Yields host (⟨.task task, ·, m⟩) value m.session.depth x

/-- The steps go the way of the evaluator, when it has a level for each invocation that may still
nest. -/
structure Carried (levels : Nat) : Prop where
  tree : ∀ (t : Tree) (scope : FrameId) (m : Machine σ), invocationLimit ≤
    m.session.depth + levels →
    Comes host (.tree t scope) (fun _ => none) m (evalTree host (inside host levels) t scope m)
  call : ∀ (callee : Value) (name : String) (args : List Value) (scope : FrameId) (m : Machine σ),
    invocationLimit ≤ m.session.depth + levels →
    Comes host (.call callee name args scope) (fun _ => none) m
      (callValue host (inside host levels) callee name args scope m)
  method : ∀ (act : Method σ) (m : Machine σ), invocationLimit ≤ m.session.depth + levels →
    Comes host (.method act) id m (runMethod (level host levels) act m)

variable {host} {source : List (Waiting σ) → Config σ} {value : β → Option Value}
  {inner : α → Option Value} {depth : Nat}

namespace Yields

/-- What has been handed back already. -/
theorem refl {x : EStateM.Result Stop (Machine σ) α} (same : (behind x).session.depth = depth) :
    Yields host (handed inner x) inner depth x :=
  ⟨same, fun _ => .refl _⟩

theorem ok {a : α} {v : Option Value} (is : inner a = v) (same : m.session.depth = depth) :
    Yields host (⟨.back (.ok v), ·, m⟩) inner depth (.ok a m) :=
  ⟨same, fun _ => is ▸ .refl _⟩

theorem error {stop : Stop} (same : m.session.depth = depth) :
    Yields host (⟨.back (.error stop), ·, m⟩) inner depth (.error stop m) :=
  ⟨same, fun _ => .refl _⟩

theorem step {x : EStateM.Result Stop (Machine σ) α}
    (h : Yields host (fun waiting => PeerScript.step host (source waiting)) inner depth x) :
    Yields host source inner depth x :=
  ⟨h.depth, fun waiting => .head (h.leads waiting)⟩

/-- A part that is done at once, and what goes on behind it. -/
theorem goOn {r : Run σ α} {f : α → Run σ β} {next : List (Waiting σ) → α → Machine σ → Config σ}
    (steady : Steady r)
    (rest : ∀ a m', r m = .ok a m' → m'.session.depth = m.session.depth →
      Yields host (next · a m') value m.session.depth (f a m')) :
    Yields host (fun waiting => PeerScript.goOn (r m) waiting (next waiting)) value m.session.depth
      ((r >>= f) m) := by
  have same := steady.depth m
  cases ran : r m with
  | ok a m' =>
      rw [ran] at same
      rw [bind_of_ok ran]
      exact rest a m' ran same
  | error stop m' =>
      rw [ran] at same
      rw [bind_of_error ran]
      exact ⟨same, fun _ => .refl _⟩

/-- A part that takes steps of its own, and what takes its result. -/
theorem after {r : Run σ α} {f : α → Run σ β} {w : Waiting σ}
    (h : Yields host source inner depth (r m))
    (passes : ∀ stop waiting (m' : Machine σ),
      take host waiting m' w (.error stop) = ⟨.back (.error stop), waiting, m'⟩)
    (rest : ∀ a m', r m = .ok a m' → m'.session.depth = depth →
      Yields host (fun waiting => take host waiting m' w (.ok (inner a))) value depth (f a m')) :
    Yields host (fun waiting => source (w :: waiting)) value depth ((r >>= f) m) := by
  obtain ⟨same, leads⟩ := h
  cases ran : r m with
  | ok a m' =>
      rw [ran] at same leads
      have taken := rest a m' ran same
      rw [bind_of_ok ran]
      exact ⟨taken.depth, fun waiting => (leads (w :: waiting)).trans (.head (taken.leads waiting))⟩
  | error stop m' =>
      rw [ran] at same leads
      rw [bind_of_error ran]
      refine ⟨same, fun waiting => (leads (w :: waiting)).trans (.head ?_)⟩
      change Leads host (take host waiting m' w (.error stop)) _
      rw [passes]
      exact .refl _

/-- A method goes on with what has come of a run, unless the run has stopped for good. -/
theorem resume {r : Run σ Unit} {f : Except Fault Unit → Run σ β}
    {next : Except Fault Unit → Method σ} {unit : Unit → Option Value}
    (h : Yields host source unit depth (r m))
    (rest : ∀ result m', caught r m = .ok result m' → m'.session.depth = depth →
      Yields host (⟨.task (.method (next result)), ·, m'⟩) value depth (f result m')) :
    Yields host (fun waiting => source (.resume next :: waiting)) value depth
      ((caught r >>= f) m) := by
  obtain ⟨same, leads⟩ := h
  have goesOn : ∀ result m', caught r m = .ok result m' → m'.session.depth = depth →
      (∀ waiting, Leads host (source (.resume next :: waiting))
        ⟨.task (.method (next result)), waiting, m'⟩) →
      Yields host (fun waiting => source (.resume next :: waiting)) value depth
        ((caught r >>= f) m) := by
    intro result m' came same first
    rw [bind_of_ok came]
    have more := rest result m' came same
    exact ⟨more.depth, fun waiting => (first waiting).trans (more.leads waiting)⟩
  have stays : ∀ stop m', r m = .error stop m' → (∀ fault, stop ≠ .failed fault) →
      Yields host (fun waiting => source (.resume next :: waiting)) value depth
        ((caught r >>= f) m) := by
    intro stop m' ran other
    have came : caught r m = .error stop m' := by
      unfold caught
      rw [ran]
      cases stop with
      | failed fault => exact absurd rfl (other fault)
      | _ => rfl
    rw [ran] at same leads
    rw [bind_of_error came]
    refine ⟨same, fun waiting => (leads _).trans (.head ?_)⟩
    cases stop with
    | failed fault => exact absurd rfl (other fault)
    | _ => exact .refl _
  cases ran : r m with
  | ok a m' =>
      rw [ran] at same leads
      exact goesOn (.ok ()) m' (by rw [caught, ran]) same fun waiting =>
        (leads _).trans (.head (.refl _))
  | error stop m' =>
      cases stop with
      | failed fault =>
          rw [ran] at same leads
          exact goesOn (.error fault) m' (by rw [caught, ran]) same fun waiting =>
            (leads _).trans (.head (.refl _))
      | broken => exact stays _ m' ran nofun
      | unfinished => exact stays _ m' ran nofun

/-- A tree that was under way is over. -/
theorem record (source : List (Waiting σ) → Config σ) {x : EStateM.Result Stop (Machine σ) α}
    (h : Yields host source inner depth x) (t : Tree) (started : Nat) :
    Yields host (fun waiting => source (.tree t started :: waiting)) inner depth x := by
  refine ⟨h.depth, fun waiting => (h.leads _).trans (.head ?_)⟩
  cases x <;> exact .refl _

theorem letGo (source : List (Waiting σ) → Config σ) {act : Run σ α} {frame : FrameId}
    (h : Yields host source inner depth (act (m.hold frame))) :
    Yields host (fun waiting => source (.letGo :: waiting)) inner depth (holding frame act m) := by
  obtain ⟨same, leads⟩ := h
  rw [holding_eq]
  cases ran : act (m.hold frame) with
  | ok a m' =>
      rw [ran] at same leads
      exact ⟨same, fun waiting => (leads _).trans (.head (.refl _))⟩
  | error stop m' =>
      rw [ran] at same leads
      exact ⟨same, fun waiting => (leads _).trans (.head (.refl _))⟩

theorem leave {act : Run σ α} (h : Yields host source inner (depth + 1) (act m.enter)) :
    Yields host (fun waiting => source (.leave :: waiting)) inner depth (counted act m) := by
  obtain ⟨same, leads⟩ := h
  rw [counted_eq]
  cases ran : act m.enter with
  | ok a m' =>
      rw [ran] at same leads
      exact ⟨congrArg (· - 1) same, fun waiting => (leads _).trans (.head (.refl _))⟩
  | error stop m' =>
      rw [ran] at same leads
      exact ⟨congrArg (· - 1) same, fun waiting => (leads _).trans (.head (.refl _))⟩

/-- The levels are enough for an invocation: when there is none left, the limit is reached. -/
theorem invocation {levels : Nat} (act : Inside σ → Run σ α)
    (next : Machine σ → List (Waiting σ) → Config σ)
    (enough : invocationLimit ≤ m.session.depth + levels)
    (h : ∀ fewer, levels = fewer + 1 → invocationLimit ≤ m.enter.session.depth + fewer →
      Yields host (next m.enter) inner (m.session.depth + 1) (act (level host fewer) m.enter)) :
    Yields host
      (fun waiting => PeerScript.goOn (admitted m) waiting fun _ m => next m (.leave :: waiting))
      inner m.session.depth (invocation (inside host levels) act m) := by
  have step := invocation_eq (inside host levels) act m
  by_cases deep : invocationLimit ≤ m.session.depth
  · rw [step, if_pos deep]
    refine ⟨rfl, fun waiting => ?_⟩
    rw [admitted, if_pos deep]
    exact .refl _
  · obtain ⟨fewer, rfl⟩ : ∃ fewer, levels = fewer + 1 := Nat.exists_eq_succ_of_ne_zero (by omega)
    have room : invocationLimit ≤ m.enter.session.depth + fewer := by
      change invocationLimit ≤ m.session.depth + 1 + fewer
      omega
    rw [step, if_neg deep]
    have entered := (h fewer rfl room).leave
    refine ⟨entered.depth, fun waiting => ?_⟩
    rw [admitted, if_neg deep]
    exact entered.leads waiting

end Yields

section Level

variable {levels : Nat}

theorem comes_call (below : ∀ fewer, levels = fewer + 1 → Carried host fewer) (callee : Value)
    (name : String) (args : List Value) (scope : FrameId)
    (enough : invocationLimit ≤ m.session.depth + levels) :
    Comes host (.call callee name args scope) (fun _ => none) m
      (callValue host (inside host levels) callee name args scope m) := by
  refine .step ?_
  change Yields host (fun waiting => startCall host waiting m callee name args scope) _ _ _
  cases callee with
  | closure params body home =>
      rw [callValue_closure]
      unfold startCall
      dsimp only
      split
      · generalize pushed : (if params.isEmpty then m.pushAll args else m) = m₁
        have same : m₁.session.depth = m.session.depth := by
          rw [← pushed]
          split <;> rfl
        let frame := m.common.store.frames.size
        have framed : (newFrame (m.around home scope) (params.zip args) : Run σ FrameId) m₁ =
            .ok frame (m₁.framed (m.around home scope) (params.zip args)) := by
          rw [← pushed]
          split <;> rfl
        rw [bind_of_ok framed, ← same]
        refine .invocation _
          (fun m waiting => ⟨.task (.tree body frame), .letGo :: waiting, m.hold frame⟩)
          (same.symm ▸ enough) fun fewer is room => ?_
        exact .letGo (⟨.task (.tree body frame), ·, _⟩) ((below fewer is).tree body frame _ room)
      · exact .error rfl
  | native b =>
      exact .refl ((Steady.callValue host (fun _ _ _ => Value.noConfusion) name args scope).depth m)
  | _ => exact .refl rfl

theorem comes_path (below : ∀ fewer, levels = fewer + 1 → Carried host fewer) (path : Path)
    (args : List Value) (scope : FrameId)
    (enough : invocationLimit ≤ m.session.depth + levels) :
    Comes host (.path path args scope) (fun _ => none) m
      (callPath host (inside host levels) path args scope m) := by
  refine .step ?_
  change Yields host (fun waiting => startPath host waiting m path args scope) _ _ _
  unfold startPath callPath
  generalize path.segments.getLast? = last, path.segments.dropLast = front
  match last, front with
  | none, _ => exact .error rfl
  | some name, [] =>
      refine Yields.goOn (.lookup name scope) fun callee m' _ same => ?_
      rw [← same] at enough ⊢
      exact comes_call below callee name args scope enough
  | some method, first :: others =>
      refine Yields.goOn (.resolve host _ scope) fun v m' _ same => ?_
      rw [← same] at enough ⊢
      cases v with
      | object o =>
          have invoked := Yields.invocation
            (fun level => runMethod level (host.method o method args))
            (fun m waiting => ⟨.task (.method (host.method o method args)), waiting, m⟩)
            enough fun fewer is room => (below fewer is).method _ _ room
          refine Yields.after invoked (fun _ _ _ => rfl) ?_
          rintro (_ | v) m'' - same'
          · exact Yields.ok (a := ()) rfl same'
          · exact Yields.ok (a := ()) (m := m''.push v) rfl same'
      | _ => exact .error rfl

theorem comes_applyHead (below : ∀ fewer, levels = fewer + 1 → Carried host fewer) (head : Head)
    (single : head ≠ .sequence) (values : List Value) (scope : FrameId)
    (enough : invocationLimit ≤ m.session.depth + levels) :
    Yields host (fun waiting => applyHead host waiting m head values scope) (fun _ => none)
      m.session.depth (dispatch host (inside host levels) head values scope m) := by
  by_cases calls : ∃ path, head = .invoke path
  · obtain ⟨path, rfl⟩ := calls
    exact comes_path below path values scope enough
  · have plain : ∀ path, head ≠ .invoke path := fun path is => calls ⟨path, is⟩
    have starts : ∀ waiting, applyHead host waiting m head values scope =
        handed (fun _ => none) (dispatch host none head values scope m) waiting := by
      intro waiting
      cases head with
      | invoke path => exact absurd rfl (plain path)
      | _ => rfl
    rw [dispatch_other host _ plain]
    simp only [starts]
    exact .refl ((Steady.dispatch host plain values scope).depth m)

mutual

theorem comes_tree (below : ∀ fewer, levels = fewer + 1 → Carried host fewer) :
    ∀ (t : Tree) (scope : FrameId) {m : Machine σ},
    invocationLimit ≤ m.session.depth + levels →
    Comes host (.tree t scope) (fun _ => none) m (evalTree host (inside host levels) t scope m)
  | .literal v, scope, m, _ => by
      have same : evalTree host (inside host levels) (.literal v) scope =
          evalTree host none (.literal v) scope := by
        cases v with
        | closure ps b f => rw [evalTree, evalTree]
        | _ => rw [evalTree, evalTree] <;> simp
      rw [same]
      exact .step (.refl ((Steady.literal host v scope).depth m))
  | .reference path, scope, m, _ => by
      have same : evalTree host (inside host levels) (.reference path) scope =
          evalTree host none (.reference path) scope := by
        rw [evalTree, evalTree]
      rw [same]
      exact .step (.refl ((Steady.reference host path scope).depth m))
  | .call head args, scope, m, enough => by
      refine .step ?_
      have trees := comes_trees below args scope enough
      by_cases sequence : head = .sequence
      · subst sequence
        rw [evalTree]
        exact .record _ trees _ _
      · have starts : ∀ waiting, step host ⟨.task (.tree (.call head args) scope), waiting, m⟩ =
            ⟨.task (.trees args scope), .head head m.session.stack.length scope ::
              .tree (.call head args) m.session.depth :: waiting, m⟩ := by
          intro waiting
          cases head with
          | sequence => exact absurd rfl sequence
          | _ => rfl
        simp only [starts]
        rw [evalTree_applied host _ sequence, bind_of_ok height_eq]
        refine .record (⟨.task (.trees args scope),
          .head head m.session.stack.length scope :: ·, m⟩) (.after trees ?_ ?_) _ _
        · intro stop waiting m'
          rfl
        · rintro - m' - same
          rw [← same] at enough ⊢
          refine Yields.goOn (.splitOff _) fun values m'' _ same' => ?_
          rw [← same'] at enough ⊢
          exact comes_applyHead below head sequence values scope enough

theorem comes_trees (below : ∀ fewer, levels = fewer + 1 → Carried host fewer) :
    ∀ (ts : List Tree) (scope : FrameId) {m : Machine σ},
    invocationLimit ≤ m.session.depth + levels →
    Comes host (.trees ts scope) (fun _ => none) m (evalTrees host (inside host levels) ts scope m)
  | [], _, _, _ => .step (Yields.ok (a := ()) rfl rfl)
  | t :: rest, scope, m, enough => by
      refine .step (.after (comes_tree below t scope enough) (fun _ _ _ => rfl) ?_)
      rintro - m' - same
      rw [← same] at enough ⊢
      exact comes_trees below rest scope enough

end

theorem comes_method (below : ∀ fewer, levels = fewer + 1 → Carried host fewer)
    (act : Method σ) (enough : invocationLimit ≤ m.session.depth + levels) :
    Comes host (.method act) id m (runMethod (level host levels) act m) := by
  induction act generalizing m with
  | finish result => exact .step (.refl ((Steady.ofExcept result).depth m))
  | push v next ih => exact .step (ih enough)
  | call callee name args next ih =>
      refine .step (.resume (comes_call below callee name args _ enough) fun result m' _ same => ?_)
      rw [← same] at enough ⊢
      exact ih result enough
  | run t next ih =>
      refine .step (.resume (comes_tree below t _ enough) fun result m' _ same => ?_)
      rw [← same] at enough ⊢
      exact ih result enough
  | runIn t scope next ih =>
      have inner := comes_tree below t scope (m := m.hold scope) enough
      refine .step (.resume (.letGo _ inner) fun result m' _ same => ?_)
      have same : m'.session.depth = m.session.depth := same
      change Yields host _ _ m.session.depth _
      rw [← same] at enough ⊢
      exact ih result enough
  | look next ih => exact .step (ih _ _ enough)
  | change act next ih => exact .step (ih enough)
  | stuck => exact .step (.error rfl)

theorem carried_step (below : ∀ fewer, levels = fewer + 1 → Carried host fewer) :
    Carried host levels where
  tree t scope _ := comes_tree below t scope
  call callee name args scope _ := comes_call below callee name args scope
  method act _ := comes_method below act

end Level

variable (host) in
theorem carried (levels : Nat) : Carried host levels := by
  induction levels with
  | zero => exact carried_step fun fewer same => nomatch same
  | succ levels ih =>
      refine carried_step fun fewer same => ?_
      cases same
      exact ih

end Carried

end PeerScript
