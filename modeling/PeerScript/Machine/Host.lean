import PeerScript.Session

/-!
# Runs, and the objects that scripts call

A `Run` moves a machine and ends in one of four ways: with a result, with a fault, broken, or
unfinished.  It is broken when the stack has become shorter while the arguments of a call were
collected, and unfinished when it waits for something that cannot happen.

A method of an object is a finite script of actions on the machine that calls it.  It reaches the
machine only through these actions, so that whatever a method does, the machine stays in charge of
its stack and of the invocations under way.
-/

set_option autoImplicit false

namespace PeerScript

/-- Why a run ended without a result. -/
inductive Stop where
  | failed (fault : Fault)
  | broken
  | unfinished
  deriving Inhabited

/-- An action on a machine.  The machine is kept also when the run stops. -/
abbrev Run (σ α : Type) : Type := EStateM Stop (Machine σ) α

/-- What a method does, one action after another. -/
inductive Method (σ : Type) where
  /-- ends with a fault, or with a value that is pushed if there is one -/
  | finish (result : Except Fault (Option Value))
  /-- pushes a value -/
  | push (v : Value) (next : Method σ)
  /-- calls a value with arguments in the ambient scope -/
  | call (callee : Value) (name : String) (args : List Value) (next : Except Fault Unit → Method σ)
  /-- runs a tree in the ambient scope -/
  | run (tree : Tree) (next : Except Fault Unit → Method σ)
  /-- runs a tree in the given scope -/
  | runIn (tree : Tree) (scope : FrameId) (next : Except Fault Unit → Method σ)
  /-- looks at the session and at what it shares -/
  | look (next : Session → Common σ → Method σ)
  /-- changes what the session shares -/
  | change (act : Common σ → Common σ) (next : Method σ)
  /-- waits for something that cannot happen -/
  | stuck

namespace Method

variable {σ : Type}

/-- Ends without a value. -/
def done : Method σ := .finish (.ok none)

/-- Ends with a value. -/
def give (v : Value) : Method σ := .finish (.ok (some v))

/-- Ends with a fault. -/
def fail (fault : Fault) : Method σ := .finish (.error fault)

/-- Goes on only after success. -/
def andThen (next : Method σ) : Except Fault Unit → Method σ
  | .ok () => next
  | .error fault => fail fault

end Method

/-- The objects that scripts may call. -/
structure Host (σ : Type) where
  /-- what an object is called in written text -/
  describe : σ → Object → String
  /-- a member that is read without a call -/
  member : σ → Object → String → Option Value
  /-- the method of a name, called with arguments -/
  method : Object → String → List Value → Method σ

namespace Host

variable {σ : Type}

/-- The encoder for what a machine holds. -/
def encoder (host : Host σ) (m : Machine σ) : Encoder :=
  ⟨m.session.registry, host.describe m.common.world⟩

end Host

namespace Run

variable {σ : Type}

/-- Stops with a fault. -/
def fail {α : Type} (fault : Fault) : Run σ α := throw (.failed fault)

/-- The result of a computation that may fail. -/
def ofExcept {α : Type} : Except Fault α → Run σ α
  | .ok a => pure a
  | .error fault => fail fault

/-- Puts a value on the stack. -/
def push (v : Value) : Run σ Unit := modify (·.push v)

/-- Takes the top value off the stack. -/
def pop : Run σ Value := do
  match (← get).session.stack with
  | [] => fail .stackUnderflow
  | v :: rest =>
      modify (·.withStack rest)
      return v

/-- The number of values on the stack. -/
def height : Run σ Nat := do return (← get).session.stack.length

/-- Takes the values above the lowest `base` ones off the stack, first one first.  A stack that has
become lower than that breaks the run. -/
def splitOff (base : Nat) : Run σ (List Value) := do
  let stack := (← get).session.stack
  if stack.length < base then throw .broken
  else
    let count := stack.length - base
    modify (·.withStack (stack.drop count))
    return (stack.take count).reverse

/-- A run whose fault is a result like any other.  The other two ways of ending remain. -/
def caught (r : Run σ Unit) : Run σ (Except Fault Unit) := fun m =>
  match r m with
  | .ok () m => .ok (.ok ()) m
  | .error (.failed fault) m => .ok (.error fault) m
  | .error stop m => .error stop m

end Run

end PeerScript
