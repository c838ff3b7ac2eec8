import PeerScript.Machine.Builtins
import PeerScript.Operator.Apply

/-!
# Running trees

A tree is run in a scope.  Running a literal pushes its value, running a call runs the arguments,
takes what they pushed off the stack and does what its head says.

Two things make a run end.  A tree is finite, and only an invocation goes on with another tree; and
at most `invocationLimit` invocations nest.  `Inside` is what an invocation can do with the level
below it, and `inside` ties the knot: a level for every invocation that may still nest.
-/

set_option autoImplicit false

namespace PeerScript

open Run

variable {σ : Type}

/-- What can be done inside of an invocation: run a tree in a scope, and call a value. -/
structure Inside (σ : Type) where
  run : Tree → FrameId → Run σ Unit
  call : Value → String → List Value → FrameId → Run σ Unit

/-! ## Names -/

/-- What a name means in a scope, or else in the ambient scope. -/
def lookup (name : String) (scope : FrameId) : Run σ Value := do
  let m ← get
  match m.common.store.get? scope name with
  | some v => return v
  | none =>
      match m.common.store.get? m.session.ambient name with
      | some v => return v
      | none => fail (.unbound name)

/-- The member of a value.  Only objects have members. -/
def member (host : Host σ) (v : Value) (name : String) : Run σ Value := do
  let m ← get
  let found := match v with
    | .object o => host.member m.common.world o name
    | _ => none
  match found with
  | some w => return w
  | none => fail (.unknownMember v.typeName name)

/-- The members of a value, one of the other. -/
def membersOf (host : Host σ) (v : Value) : List String → Run σ Value
  | [] => pure v
  | name :: rest => do membersOf host (← member host v name) rest

/-- What a path names.  The empty path names nothing. -/
def resolve (host : Host σ) (path : Path) (scope : FrameId) : Run σ Value := do
  let v ← lookup path.root scope
  match path.segments with
  | [] => throw .broken
  | _ :: members => membersOf host v members

/-! ## Invocations -/

/-- Runs one invocation.  It counts until it ends, however it ends. -/
def counted {α : Type} (act : Run σ α) : Run σ α := fun m =>
  let enter (m : Machine σ) : Machine σ :=
    { m with session := { m.session with depth := m.session.depth + 1 } }
  let leave (m : Machine σ) : Machine σ :=
    { m with session := { m.session with depth := m.session.depth - 1 } }
  match act (enter m) with
  | .ok a m => .ok a (leave m)
  | .error stop m => .error stop (leave m)

/-- Starts an invocation, unless as many as allowed are under way. -/
def invocation {α : Type} (inside : Option (Inside σ)) (act : Inside σ → Run σ α) : Run σ α := do
  if invocationLimit ≤ (← get).session.depth then fail (.recursionLimit invocationLimit)
  else
    match inside with
    | none => throw .unfinished
    | some level => counted (act level)

/-- Runs something in a frame, which is kept until the end. -/
def holding {α : Type} (frame : FrameId) (act : Run σ α) : Run σ α := fun m =>
  let hold (m : Machine σ) : Machine σ :=
    { m with session := { m.session with running := frame :: m.session.running } }
  let drop (m : Machine σ) : Machine σ :=
    { m with session := { m.session with running := m.session.running.tail } }
  match act (hold m) with
  | .ok a m => .ok a (drop m)
  | .error stop m => .error stop (drop m)

/-- A new frame in which the given names are bound. -/
def newFrame (parent : FrameId) (bindings : List (String × Value)) : Run σ FrameId :=
  modifyGet fun m =>
    let (store, frame) := m.common.store.alloc (some parent)
    (frame, { m with common := { m.common with store := store.setAll frame bindings } })

/-- The frame around the body of a function: its home while that is alive, else the scope of the
caller. -/
def frameAround (home : Option FrameId) (scope : FrameId) : Run σ FrameId := do
  match home with
  | none => return scope
  | some f => if (← get).alive f then return f else return scope

/-- Calls a value.  The arguments of a function without parameters go back to the stack. -/
def callValue (host : Host σ) (inside : Option (Inside σ)) (callee : Value) (name : String)
    (args : List Value) (scope : FrameId) : Run σ Unit := do
  match callee with
  | .native b =>
      match ← b.run host args with
      | some v => push v
      | none => pure ()
  | .closure params body home =>
      let parent ← frameAround home scope
      if params.isEmpty then modify (·.pushAll args)
      else if params.length ≠ args.length then fail (.arity name params.length args.length)
      let frame ← newFrame parent (params.zip args)
      invocation inside fun level => holding frame (level.run body frame)
  | other => fail (.notInvocable name other.typeName)

/-- Runs a method inside of its invocation. -/
def runMethod (level : Inside σ) : Method σ → Run σ (Option Value)
  | .finish result => ofExcept result
  | .push v next => do
      push v
      runMethod level next
  | .call callee name args next => do
      let ambient := (← get).session.ambient
      runMethod level (next (← caught (level.call callee name args ambient)))
  | .run tree next => do
      let ambient := (← get).session.ambient
      runMethod level (next (← caught (level.run tree ambient)))
  | .runIn tree scope next => do
      runMethod level (next (← caught (holding scope (level.run tree scope))))
  | .look next => do
      let m ← get
      runMethod level (next m.session (m.common.suspend m.session))
  | .change act next => do
      modify fun m =>
        { m with common :=
          { act (m.common.suspend m.session) with
            held := m.common.held, watched := m.common.watched } }
      runMethod level next
  | .stuck => throw .unfinished

/-- Calls what a path names: a name by itself, or a method of the object before the last dot. -/
def callPath (host : Host σ) (inside : Option (Inside σ)) (path : Path) (args : List Value)
    (scope : FrameId) : Run σ Unit := do
  match path.segments.getLast?, path.segments.dropLast with
  | none, _ => fail (.unbound path.render)
  | some name, [] =>
      let callee ← lookup name scope
      callValue host inside callee name args scope
  | some method, receiver =>
      match ← resolve host ⟨receiver⟩ scope with
      | .object o =>
          match ← invocation inside fun level => runMethod level (host.method o method args) with
          | some v => push v
          | none => pure ()
      | other => fail (.unknownMember other.typeName method)

/-! ## Trees -/

/-- What a head does with the values of its arguments. -/
def dispatch (host : Host σ) (inside : Option (Inside σ)) (head : Head) (values : List Value)
    (scope : FrameId) : Run σ Unit := do
  match head with
  | .sequence => modify (·.pushAll values)
  | .bind name =>
      match values.getLast? with
      | none => fail .stackUnderflow
      | some v =>
          modify (·.pushAll values.dropLast)
          modify (·.bind scope name v)
  | .op operator => push (← ofExcept (operator.apply values))
  | .list => push (.list values)
  | .construct typeName =>
      let m ← get
      let v ← ofExcept (m.session.registry.decode typeName values m.common.serial)
      set { m with common := { m.common with serial := m.common.serial + 1 } }
      push v
  | .invoke path => callPath host inside path values scope

mutual

/-- Runs a tree in a scope. -/
def evalTree (host : Host σ) (inside : Option (Inside σ)) : Tree → FrameId → Run σ Unit
  | .literal (.closure params body _), scope => do
      modify (·.capture scope)
      push (.closure params body (some scope))
  | .literal v, _ => push v
  | .reference path, scope => do push (← resolve host path scope)
  | .call .sequence args, scope => evalTrees host inside args scope
  | .call head args, scope => do
      let base ← height
      evalTrees host inside args scope
      dispatch host inside head (← splitOff base) scope

/-- Runs trees one after another. -/
def evalTrees (host : Host σ) (inside : Option (Inside σ)) : List Tree → FrameId → Run σ Unit
  | [], _ => pure ()
  | t :: rest, scope => do
      evalTree host inside t scope
      evalTrees host inside rest scope

end

/-- What can be done inside of an invocation when at most `levels` more may nest, itself
included. -/
def inside (host : Host σ) : Nat → Option (Inside σ)
  | 0 => none
  | levels + 1 =>
      some {
        run := fun tree scope => evalTree host (inside host levels) tree scope
        call := fun callee name args scope =>
          callValue host (inside host levels) callee name args scope }

/-- The levels that a machine may still nest. -/
def Machine.levels (m : Machine σ) : Nat := invocationLimit - m.session.depth

/-- Runs a tree in a scope, with as many levels as may still nest. -/
def evalIn (host : Host σ) (tree : Tree) (scope : FrameId) : Run σ Unit := fun m =>
  evalTree host (inside host m.levels) tree scope m

/-- Runs a tree in the ambient scope. -/
def eval (host : Host σ) (tree : Tree) : Run σ Unit := do
  evalIn host tree (← get).session.ambient

/-- Calls a value in the ambient scope. -/
def invoke (host : Host σ) (callee : Value) (name : String) (args : List Value) : Run σ Unit :=
  fun m => callValue host (inside host m.levels) callee name args m.session.ambient m

/-- What a failed script leaves on the stack. -/
def marker (fault : Fault) : Value := .str fault.errorText

/-- Runs a script.  A fault cuts it short and leaves a marker on the stack. -/
def runScript (host : Host σ) (tree : Tree) : Run σ Unit := fun m =>
  match eval host tree m with
  | .error (.failed fault) m =>
      .error (.failed fault)
        ({ m with session := { m.session with depth := 0 } }.push (marker fault))
  | other => other

end PeerScript
