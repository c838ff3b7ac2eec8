import PeerScript.Machine.Eval
import PeerScript.Settings

/-!
# Answering a message

A message is parsed in the scope of its connection and run, and the answer is the whole stack in
written form.  Whatever goes wrong in a script ends up on the stack as a marker, so that every
message has an answer.  A line of the console is answered in the same way, but when it cannot be
parsed the fault is all there is to see.
-/

set_option autoImplicit false

namespace PeerScript

open Run

variable {σ : Type}

/-- The tree of a text whose free names are those of a scope. -/
def parsedIn (scope : FrameId) (language : Script.Language) (text : String) :
    Run σ (Except Fault Tree) := do
  let m ← get
  let context : Script.Context := ⟨m.common.store.contains scope, m.session.registry⟩
  match Script.parse language context text m.common.serial with
  | .error fault => return .error fault
  | .ok (tree, serial) =>
      set { m with common := { m.common with serial := serial } }
      return .ok tree

/-- The tree of a text whose free names are those of the ambient scope. -/
def parsed (language : Script.Language) (text : String) : Run σ (Except Fault Tree) := do
  parsedIn (← get).session.ambient language text

/-- Runs the script that a message holds and writes the stack behind it. -/
def answer (host : Host σ) (language : Script.Language) (policy : StackPolicy) (text : String) :
    Run σ String := do
  match ← parsed language text with
  | .error fault => push (marker fault)
  | .ok tree =>
      let _ ← caught (runScript host tree.bare)
  let m ← get
  if policy = .consumeOnReply then modify (·.withStack [])
  return (host.encoder m).script m.session.values

/-- Runs the script that a line of the console holds and writes the stack behind it. -/
def answerLine (host : Host σ) (line : String) : Run σ String := do
  match ← parsed .rho line with
  | .error fault => return fault.errorText
  | .ok tree =>
      let _ ← caught (runScript host tree.bare)
      let m ← get
      return (host.encoder m).script m.session.values

end PeerScript
