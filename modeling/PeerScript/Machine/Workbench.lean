import PeerScript.Machine.Eval

/-!
# Sessions side by side

A workbench holds sessions and scopes under names.  The sessions share their frames, and each of
them is alive until it is dropped; a named scope is alive as long as it has its name.
-/

set_option autoImplicit false

namespace PeerScript

/-- Named sessions over the same frames, and named scopes. -/
structure Workbench (σ : Type) where
  common : Common σ
  sessions : List (String × Session)
  scopes : List (String × FrameId)

namespace Workbench

variable {σ : Type}

/-- The machine of one session.  The other sessions and the named scopes own what they hold. -/
def machine? (w : Workbench σ) (name : String) : Option (Machine σ) :=
  (w.sessions.lookup name).map fun session =>
    let others := (Association.erase name w.sessions).map (·.2)
    let common := others.foldl Common.suspend w.common.release
    ⟨session, { common with held := w.scopes.map (·.2) ++ common.held }⟩

/-- The workbench after one of its machines has run. -/
def put (w : Workbench σ) (name : String) (m : Machine σ) : Workbench σ :=
  { w with common := m.common.release, sessions := Association.put name m.session w.sessions }

/-- Runs something in a session. -/
def run {α : Type} (w : Workbench σ) (name : String) (act : Run σ α) :
    Option (Workbench σ × Except Stop α) :=
  (w.machine? name).map fun m =>
    match act m with
    | .ok a m => (w.put name m, .ok a)
    | .error stop m => (w.put name m, .error stop)

/-- Names a new scope below another one. -/
def child (w : Workbench σ) (name : String) (parent : Option FrameId) : Workbench σ :=
  let (common, frame) := w.common.alloc parent
  { w with common := common, scopes := Association.put name frame w.scopes }

/-- Forgets the name of a scope. -/
def dropScope (w : Workbench σ) (name : String) : Workbench σ :=
  { w with scopes := Association.erase name w.scopes }

/-- Starts a session in a scope. -/
def start (w : Workbench σ) (name : String) (registry : Registry) (scope : FrameId) : Workbench σ :=
  { w with sessions := Association.put name (.new registry scope) w.sessions }

/-- Starts a session in a scope of its own that binds the builtins. -/
def startAlone (w : Workbench σ) (name : String) (registry : Registry) : Workbench σ :=
  let (common, frame) := w.common.alloc none
  let common := { common with store := Builtin.install common.store frame }
  { w with common := common }.start name registry frame

/-- Ends a session. -/
def dropSession (w : Workbench σ) (name : String) : Workbench σ :=
  { w with sessions := Association.erase name w.sessions }

end Workbench

end PeerScript
