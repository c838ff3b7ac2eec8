import PeerScript.Encoder
import PeerScript.Store

/-!
# Sessions and what they share

A session is one data stack with the scope it runs in.  Scripts of a session make functions, and the
frames in which they were made are kept by the session: a function only remembers its home, so when
the session goes, so do the frames that its scripts made.

Sessions over the same frames share a `Common`: the frames, the supply of serial numbers, what has
been printed, and the state `σ` of the objects that scripts may call.
-/

set_option autoImplicit false

namespace PeerScript

/-- The number of nested invocations at which the next one fails. -/
def invocationLimit : Nat := 256

/-- The number of captured frames at which unused ones are looked for at the earliest. -/
def sweepFloor : Nat := 64

/-- A data stack, the scope it runs in, and what its scripts have captured. -/
structure Session where
  registry : Registry
  /-- the scope that scripts run in unless another one is given -/
  ambient : FrameId
  /-- the values, the last one pushed first -/
  stack : List Value
  /-- the number of invocations under way -/
  depth : Nat
  /-- the frames of the invocations under way, innermost first -/
  running : List FrameId
  /-- the frames in which functions were made, in that order, without repetition -/
  captured : List FrameId
  /-- the number of captured frames at which unused ones are looked for -/
  sweepAt : Nat

namespace Session

/-- A session in which nothing has happened. -/
def new (registry : Registry) (ambient : FrameId) : Session :=
  ⟨registry, ambient, [], 0, [], [], sweepFloor⟩

/-- The values, the first one pushed first. -/
def values (s : Session) : List Value := s.stack.reverse

/-- The frames on which a session has a handle. -/
def handles (s : Session) : List FrameId := s.captured ++ s.ambient :: s.running

/-- The homes of the functions on the stack of a session. -/
def homes (s : Session) : List FrameId := Value.homesAll s.stack

end Session

/-- What sessions share. -/
structure Common (σ : Type) where
  store : Store
  /-- the serial number of the next instance -/
  serial : Nat
  /-- the lines printed so far, last one first -/
  printed : List String
  /-- the state of the objects -/
  world : σ
  /-- handles held by others than the session that runs -/
  held : List FrameId
  /-- homes of functions held by others than the session that runs -/
  watched : List FrameId

namespace Common

variable {σ : Type}

/-- No frames, and objects in the given state. -/
def new (world : σ) : Common σ := ⟨.empty, 0, [], world, [], []⟩

/-- The same with the handles and the functions of one more session, which does not run. -/
def suspend (c : Common σ) (s : Session) : Common σ :=
  { c with held := s.handles ++ c.held, watched := s.homes ++ c.watched }

/-- The same with no handles or functions but those of the running session. -/
def release (c : Common σ) : Common σ := { c with held := [], watched := [] }

/-- One more frame. -/
def alloc (c : Common σ) (parent : Option FrameId) : Common σ × FrameId :=
  ({ c with store := (c.store.alloc parent).1 }, (c.store.alloc parent).2)

/-- The next serial number. -/
def fresh (c : Common σ) : Common σ × Nat := ({ c with serial := c.serial + 1 }, c.serial)

end Common

/-- A session that runs, with what it shares with others. -/
structure Machine (σ : Type) where
  session : Session
  common : Common σ

namespace Machine

variable {σ : Type}

/-- The owners of handles on frames. -/
def owners (m : Machine σ) : List FrameId := m.session.handles ++ m.common.held

/-- Whether a frame is alive. -/
def alive (m : Machine σ) (f : FrameId) : Bool := m.common.store.alive m.owners f

/-- Whether anything but a captured frame's entry itself refers to the frame, when `others` are the
entries of the other captured frames: a handle of its own or of a descendant, or a function made in
it. -/
def isNeeded (m : Machine σ) (others : List FrameId) (f : FrameId) : Bool :=
  let outside := others ++ m.session.ambient :: m.session.running ++ m.common.held
  m.common.store.alive outside f ||
    (m.common.watched ++ m.session.homes ++ m.common.store.homes (f :: outside)).contains f

/-- The captured frames that are still used, looked for from first to last. `kept` are those already
found to be used. -/
def used (m : Machine σ) (kept : List FrameId) : List FrameId → List FrameId
  | [] => kept
  | f :: rest => m.used (if m.isNeeded (kept ++ rest) f then kept ++ [f] else kept) rest

/-- Forgets the captured frames that nothing refers to any more. -/
def sweep (m : Machine σ) : Machine σ :=
  let kept := m.used [] m.session.captured
  { m with session := { m.session with
      captured := kept, sweepAt := max (2 * kept.length) sweepFloor } }

/-- Keeps a frame for the functions made in it. -/
def capture (m : Machine σ) (f : FrameId) : Machine σ :=
  if f ∈ m.session.captured then m
  else
    let m := { m with session := { m.session with captured := m.session.captured ++ [f] } }
    if m.session.sweepAt ≤ m.session.captured.length then m.sweep else m

/-- Puts a value on the stack. -/
def push (m : Machine σ) (v : Value) : Machine σ :=
  { m with session := { m.session with stack := v :: m.session.stack } }

/-- Puts values on the stack, the first one first. -/
def pushAll (m : Machine σ) (vs : List Value) : Machine σ :=
  { m with session := { m.session with stack := vs.reverse ++ m.session.stack } }

/-- Replaces the stack. -/
def withStack (m : Machine σ) (stack : List Value) : Machine σ :=
  { m with session := { m.session with stack := stack } }

/-- Binds a name in a frame. -/
def bind (m : Machine σ) (f : FrameId) (name : String) (v : Value) : Machine σ :=
  { m with common := { m.common with store := m.common.store.set f name v } }

end Machine

end PeerScript
