import PeerScript.Store

/-!
# Handles on frames

Others hold frames by named handles.  A strong handle keeps its frame and all ancestors of it alive;
a weak handle does not, and yields its frame only while that is alive.  `Handles.step` is what the
holders can do with them.
-/

set_option autoImplicit false

namespace PeerScript

/-- Frames with the handles that are held on them. -/
structure Handles where
  store : Store
  strong : List (String × FrameId)
  weak : List (String × FrameId)
  deriving Inhabited

namespace Handles

/-- No frames. -/
def empty : Handles := ⟨.empty, [], []⟩

/-- Whether a frame is alive. -/
def alive (h : Handles) (f : FrameId) : Bool := h.store.alive (h.strong.map (·.2)) f

/-- The frame of a strong handle. -/
def frame? (h : Handles) (name : String) : Option FrameId := h.strong.lookup name

/-- Names a strong handle on a frame. -/
def hold (h : Handles) (name : String) (f : FrameId) : Handles :=
  { h with strong := Association.put name f h.strong }

/-- Names a strong handle on a new frame. -/
def alloc (h : Handles) (name : String) (parent : Option FrameId) : Handles :=
  let (store, f) := h.store.alloc parent
  { h with store := store }.hold name f

/-- Gives a strong handle up. -/
def release (h : Handles) (name : String) : Handles :=
  { h with strong := Association.erase name h.strong }

/-- Names a weak handle on a frame. -/
def watch (h : Handles) (name : String) (f : FrameId) : Handles :=
  { h with weak := Association.put name f h.weak }

/-- The frame of a weak handle, while it is alive. -/
def upgrade? (h : Handles) (name : String) : Option FrameId :=
  (h.weak.lookup name).filter h.alive

/-- What a holder of handles does.  A handle that is made gets the name `made`, and takes it away
from the handle that had it. -/
inductive Act where
  | new (made : String)
  | child (name made : String)
  | clone (name made : String)
  | drop (name : String)
  | downgrade (name made : String)
  | upgrade (weak made : String)
  | parent (name made : String)
  | set (name key : String) (value : Value)
  | remove (name key : String)

/-- The handles after an act.  Without the handle that it needs, nothing happens. -/
def step (h : Handles) : Act → Handles
  | .new made => h.alloc made none
  | .child name made => (h.frame? name).elim h fun f => h.alloc made (some f)
  | .clone name made => (h.frame? name).elim h (h.hold made)
  | .drop name => h.release name
  | .downgrade name made => (h.frame? name).elim h (h.watch made)
  | .upgrade weak made => (h.upgrade? weak).elim h (h.hold made)
  | .parent name made => ((h.frame? name).bind h.store.parent?).elim h (h.hold made)
  | .set name key value =>
      (h.frame? name).elim h fun f => { h with store := h.store.set f key value }
  | .remove name key => (h.frame? name).elim h fun f => { h with store := h.store.remove f key }

/-- What an act answers that changes bindings: the binding of the frame that it replaces. -/
def replaced? (h : Handles) : Act → Option Value
  | .set name key _ | .remove name key => (h.frame? name).bind (h.store.local? · key)
  | _ => none

/-- The handles after acts. -/
def run (h : Handles) (acts : List Act) : Handles := acts.foldl step h

end Handles

end PeerScript
