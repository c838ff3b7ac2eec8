import PeerScript.Association
import PeerScript.Value

/-!
# Frames of bindings

A frame binds names and may have a parent, in which a name is looked up that the frame does not
bind.  Frames are made one after another and a parent is made before its children, so every walk
along the parents ends.  Frames are never taken away: whether a frame is still alive is a question
about who owns a handle on it or on one of its descendants.
-/

set_option autoImplicit false

namespace PeerScript

/-- The bindings of one frame. -/
structure Frame where
  bindings : List (String × Value)
  parent : Option FrameId
  deriving Inhabited

/-- All frames, each under its number. -/
structure Store where
  frames : Array Frame
  deriving Inhabited

namespace Store

/-- No frames. -/
def empty : Store := ⟨#[]⟩

/-- The store with one more frame, and the number of that frame. -/
def alloc (s : Store) (parent : Option FrameId) : Store × FrameId :=
  (⟨s.frames.push ⟨[], parent⟩⟩, s.frames.size)

/-- The bindings of a frame; a number without a frame has none. -/
def bindings (s : Store) (f : FrameId) : List (String × Value) :=
  (s.frames[f]?.map Frame.bindings).getD []

/-- The parent of a frame. -/
def parent? (s : Store) (f : FrameId) : Option FrameId := s.frames[f]?.bind Frame.parent

/-- A frame and its ancestors, nearest first. -/
def chain (s : Store) (f : FrameId) : List FrameId :=
  match s.parent? f with
  | none => [f]
  | some p => if p < f then f :: s.chain p else [f]
termination_by f

/-- What a frame itself binds to a name. -/
def local? (s : Store) (f : FrameId) (name : String) : Option Value := (s.bindings f).lookup name

/-- What a name means in a frame: the binding of the nearest frame of the chain that has one. -/
def get? (s : Store) (f : FrameId) (name : String) : Option Value :=
  (s.chain f).findSome? fun g => s.local? g name

/-- Whether a name means anything in a frame. -/
def contains (s : Store) (f : FrameId) (name : String) : Bool :=
  (s.chain f).any fun g => (s.bindings g).any fun b => b.1 == name

/-- Changes the bindings of one frame. -/
def modify (s : Store) (f : FrameId) (change : List (String × Value) → List (String × Value)) :
    Store :=
  ⟨s.frames.modify f fun frame => { frame with bindings := change frame.bindings }⟩

/-- Binds a name in a frame. -/
def set (s : Store) (f : FrameId) (name : String) (value : Value) : Store :=
  s.modify f (Association.put name value)

/-- Takes the binding of a name out of a frame. -/
def remove (s : Store) (f : FrameId) (name : String) : Store := s.modify f (Association.erase name)

/-- Binds names one after another, so that the last binding of a name counts. -/
def setAll (s : Store) (f : FrameId) (bindings : List (String × Value)) : Store :=
  bindings.foldl (fun s b => s.set f b.1 b.2) s

/-- The names that a frame itself binds, sorted. -/
def names (s : Store) (f : FrameId) : List String := Association.sortedNames (s.bindings f)

/-- Whether a frame is alive for the owners of the given handles: one of them holds it, or holds one
of its descendants. -/
def alive (s : Store) (owners : List FrameId) (f : FrameId) : Bool :=
  owners.any fun o => (s.chain o).contains f

end Store

mutual

/-- The homes of the functions in a value. -/
def Value.homes : Value → List FrameId
  | .closure _ body home => home.toList ++ body.homes
  | .list items => Value.homesAll items
  | .handle _ _ fields => Value.homesAll fields
  | _ => []

/-- The homes of the functions in values. -/
def Value.homesAll : List Value → List FrameId
  | [] => []
  | v :: rest => v.homes ++ Value.homesAll rest

/-- The homes of the functions in a tree. -/
def Tree.homes : Tree → List FrameId
  | .literal v => v.homes
  | .reference _ => []
  | .call _ args => Tree.homesAll args

/-- The homes of the functions in trees. -/
def Tree.homesAll : List Tree → List FrameId
  | [] => []
  | t :: rest => t.homes ++ Tree.homesAll rest

end

/-- The homes of the functions bound in the frames that the given handles keep alive. -/
def Store.homes (s : Store) (owners : List FrameId) : List FrameId :=
  (owners.flatMap s.chain).flatMap fun f => Value.homesAll ((s.bindings f).map (·.2))

end PeerScript
