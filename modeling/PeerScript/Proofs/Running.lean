import PeerScript.Machine.Eval

/-!
# Steps of runs

What the parts of a run do to a machine, as equations.  A call of a tree is `evalTree_call`: its
arguments have pushed their values, and its head gets exactly these.
-/

set_option autoImplicit false

namespace PeerScript

variable {σ : Type}

/-- The machine with another serial number for the next instance. -/
def Machine.numbered (m : Machine σ) (serial : Nat) : Machine σ :=
  { m with common := { m.common with serial := serial } }

/-- The machine inside of one more invocation. -/
def Machine.enter (m : Machine σ) : Machine σ :=
  { m with session := { m.session with depth := m.session.depth + 1 } }

/-- The machine that keeps one more frame. -/
def Machine.hold (m : Machine σ) (frame : FrameId) : Machine σ :=
  { m with session := { m.session with running := frame :: m.session.running } }

/-- The machine inside of one invocation less. -/
def Machine.leave (m : Machine σ) : Machine σ :=
  { m with session := { m.session with depth := m.session.depth - 1 } }

/-- The machine that keeps one frame less. -/
def Machine.letGo (m : Machine σ) : Machine σ :=
  { m with session := { m.session with running := m.session.running.tail } }

namespace Run

variable {α β : Type} {m m' : Machine σ}

theorem bind_of_ok {r : Run σ α} {f : α → Run σ β} {a : α} (h : r m = .ok a m') :
    (r >>= f) m = f a m' := by
  change EStateM.bind r f m = _
  rw [EStateM.bind, h]

theorem bind_of_error {r : Run σ α} {f : α → Run σ β} {stop : Stop} (h : r m = .error stop m') :
    (r >>= f) m = .error stop m' := by
  change EStateM.bind r f m = _
  rw [EStateM.bind, h]

theorem get_eq : (get : Run σ (Machine σ)) m = .ok m m := rfl

theorem height_eq : height m = .ok m.session.stack.length m := rfl

theorem push_eq (v : Value) : push v m = .ok () (m.push v) := rfl

theorem splitOff_eq (base : Nat) : splitOff base m =
    if m.session.stack.length < base then .error .broken m
    else .ok (m.session.stack.take (m.session.stack.length - base)).reverse
      (m.withStack (m.session.stack.drop (m.session.stack.length - base))) := by
  have step : splitOff base m = (if m.session.stack.length < base then throw .broken
    else do
      modify (·.withStack (m.session.stack.drop (m.session.stack.length - base)))
      return (m.session.stack.take (m.session.stack.length - base)).reverse :
      Run σ (List Value)) m := rfl
  rw [step]
  split <;> rfl

theorem splitOff_of_lt {base : Nat} (low : m.session.stack.length < base) :
    splitOff base m = .error .broken m := (splitOff_eq base).trans (if_pos low)

theorem splitOff_of_le {base : Nat} (high : base ≤ m.session.stack.length) :
    splitOff base m = .ok (m.session.stack.take (m.session.stack.length - base)).reverse
      (m.withStack (m.session.stack.drop (m.session.stack.length - base))) :=
  (splitOff_eq base).trans (if_neg (Nat.not_lt_of_le high))

/-- The values that have been pushed since are taken off again. -/
theorem splitOff_pushAll (vs : List Value) :
    splitOff m.session.stack.length (m.pushAll vs) = .ok vs m := by
  have stack : (m.pushAll vs).session.stack = vs.reverse ++ m.session.stack := rfl
  have length :
      (m.pushAll vs).session.stack.length = vs.reverse.length + m.session.stack.length := by
    rw [stack, List.length_append]
  rw [splitOff_of_le (by omega), length, Nat.add_sub_cancel, stack, List.take_left, List.drop_left,
    List.reverse_reverse]
  rfl

theorem pop_eq : (pop : Run σ Value) m = (match m.session.stack with
    | [] => fail .stackUnderflow
    | v :: rest => do
        modify (·.withStack rest)
        return v : Run σ Value) m := rfl

theorem caught_eq (r : Run σ Unit) (m : Machine σ) : caught r m = match r m with
    | .ok () m => .ok (.ok ()) m
    | .error (.failed fault) m => .ok (.error fault) m
    | .error stop m => .error stop m := rfl

end Run

/-! ## Names -/

theorem lookup_eq (name : String) (scope : FrameId) (m : Machine σ) :
    lookup name scope m = (match m.common.store.get? scope name with
      | some v => pure v
      | none => match m.common.store.get? m.session.ambient name with
        | some v => pure v
        | none => Run.fail (.unbound name) : Run σ Value) m := rfl

theorem member_object_eq (host : Host σ) (o : Object) (name : String) (m : Machine σ) :
    member host (.object o) name m = (match host.member m.common.world o name with
      | some w => pure w
      | none => Run.fail (.unknownMember o.typeName name) : Run σ Value) m := rfl

/-! ## Invocations -/

section Invocations

variable {α : Type}

theorem counted_eq (act : Run σ α) (m : Machine σ) :
    counted act m = match act m.enter with
      | .ok a m => .ok a m.leave
      | .error stop m => .error stop m.leave := rfl

theorem holding_eq (frame : FrameId) (act : Run σ α) (m : Machine σ) :
    holding frame act m = match act (m.hold frame) with
      | .ok a m => .ok a m.letGo
      | .error stop m => .error stop m.letGo := rfl

theorem invocation_eq (inside : Option (Inside σ)) (act : Inside σ → Run σ α) (m : Machine σ) :
    invocation inside act m =
      (if invocationLimit ≤ m.session.depth then Run.fail (.recursionLimit invocationLimit)
        else match inside with
          | none => throw .unfinished
          | some level => counted (act level) : Run σ α) m := rfl

end Invocations

/-! ## Trees -/

/-- What a script does is what its tree does in the ambient scope, and a fault leaves a marker. -/
theorem runScript_eq (host : Host σ) (t : Tree) (m : Machine σ) :
    runScript host t m = match evalIn host t m.session.ambient m with
      | .error (.failed fault) m =>
          .error (.failed fault)
            ({ m with session := { m.session with depth := 0 } }.push (marker fault))
      | other => other := rfl

variable (host : Host σ) (inside : Option (Inside σ)) {m m' : Machine σ}

/-- A literal that is no function is pushed as it is. -/
theorem evalTree_plain {v : Value} (no : ∀ ps b f, v ≠ .closure ps b f) (scope : FrameId) :
    evalTree host inside (.literal v) scope = Run.push v := by
  rw [evalTree]
  exact fun ps b f same => no ps b f same

theorem evalTree_literal {v : Value} (no : ∀ ps b f, v ≠ .closure ps b f) (scope : FrameId) :
    evalTree host inside (.literal v) scope m = .ok () (m.push v) := by
  rw [evalTree_plain host inside no]
  rfl

/-- What a call does, unless it is a list of statements. -/
theorem evalTree_applied {head : Head} (single : head ≠ .sequence) (args : List Tree)
    (scope : FrameId) :
    evalTree host inside (.call head args) scope = (do
      let base ← Run.height
      evalTrees host inside args scope
      dispatch host inside head (← Run.splitOff base) scope) := by
  rw [evalTree]
  exact single

theorem evalTrees_cons_of_ok {t : Tree} {rest : List Tree} {scope : FrameId}
    (h : evalTree host inside t scope m = .ok () m') :
    evalTrees host inside (t :: rest) scope m = evalTrees host inside rest scope m' := by
  rw [evalTrees, Run.bind_of_ok h]

theorem evalTrees_literals (vs : List Value) (no : ∀ v ∈ vs, ∀ ps b f, v ≠ .closure ps b f)
    (scope : FrameId) : ∀ m : Machine σ,
      evalTrees host inside (vs.map .literal) scope m = .ok () (m.pushAll vs) := by
  induction vs with
  | nil => exact fun _ => rfl
  | cons v vs ih =>
      intro m
      have first := evalTree_literal host inside (m := m) (no v List.mem_cons_self) scope
      rw [List.map_cons, evalTrees_cons_of_ok host inside first,
        ih (fun w among => no w (List.mem_cons_of_mem v among))]
      simp [Machine.pushAll, Machine.push]

/-- A head gets the values that its arguments have pushed. -/
theorem evalTree_call {head : Head} (single : head ≠ .sequence) {args : List Tree} {scope : FrameId}
    {vs : List Value} (h : evalTrees host inside args scope m = .ok () (m'.pushAll vs))
    (same : m'.session.stack = m.session.stack) :
    evalTree host inside (.call head args) scope m = dispatch host inside head vs scope m' := by
  rw [evalTree_applied host inside single, Run.bind_of_ok Run.height_eq, Run.bind_of_ok h, ← same,
    Run.bind_of_ok (Run.splitOff_pushAll vs)]

end PeerScript
