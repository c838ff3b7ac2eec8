import PeerScript.Script.Pi
import PeerScript.Script.Rho

/-!
# From text to trees

Two surface languages have the same trees.  To parse a script is to run nothing of it, but every
name is checked, so that a misspelt one fails before the script has done anything.
-/

set_option autoImplicit false

namespace PeerScript.Script

/-- The surface languages. -/
inductive Language where
  /-- statements and infix operators -/
  | rho
  /-- terms, the language of replies -/
  | pi
  deriving DecidableEq, Repr, Inhabited

/-- The name of a language. -/
def Language.name : Language → String
  | rho => "rho"
  | pi => "pi"

/-- The tree of a script in either language, and the serial number of the next instance. -/
def parse (language : Language) (ctx : Context) (source : String) (serial : Nat) :
    Except Fault (Tree × Nat) :=
  match tokenize source with
  | .error fault => .error fault
  | .ok tokens =>
      match language with
      | .rho => Rho.parse ctx tokens serial
      | .pi => Pi.parse ctx tokens serial

end PeerScript.Script
