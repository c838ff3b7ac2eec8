import PeerScript.Machine.Host

/-!
# The functions of every scope

Builtins act on the stack of the machine that calls them.  A builtin that fails leaves the stack as
it was.
-/

set_option autoImplicit false

namespace PeerScript.Builtin

open Run

variable {σ : Type}

/-- The fault of a builtin with the wrong number of arguments. -/
def wrongCount (b : Builtin) (expected : Nat) (args : List Value) : Fault :=
  .arity b.name expected args.length

/-- The only argument. -/
def single (b : Builtin) (args : List Value) : Run σ Value :=
  match args with
  | [v] => pure v
  | _ => fail (wrongCount b 1 args)

/-- Checks that there are no arguments. -/
def noArgs (b : Builtin) (args : List Value) : Run σ Unit :=
  if args.isEmpty then pure () else fail (wrongCount b 0 args)

/-- A count as a value. -/
def count (n : Nat) : Value := .int (Int64.ofNat n)

/-- The text of a value for people: a string as it is, anything else in its written form. -/
def plainText (e : Encoder) : Value → String
  | .str s => s
  | v => e.encode v

/-- What a builtin does, and the value that is pushed behind it. -/
def run (host : Host σ) (b : Builtin) (args : List Value) : Run σ (Option Value) := do
  match b with
  | assert =>
      if args.isEmpty then fail (wrongCount assert 1 args)
      else if args.all Value.truthy then return none
      else fail .assertionFailed
  | print =>
      let e := host.encoder (← get)
      let line := " ".intercalate (args.map (plainText e))
      modify fun m => { m with common := { m.common with printed := line :: m.common.printed } }
      return none
  | depth =>
      noArgs depth args
      return some (count (← height))
  | drop =>
      noArgs drop args
      let _ ← pop
      return none
  | dup =>
      noArgs dup args
      match (← get).session.stack with
      | [] => fail .stackUnderflow
      | v :: _ => return some v
  | swap =>
      noArgs swap args
      match (← get).session.stack with
      | top :: below :: rest =>
          modify (·.withStack (top :: rest))
          return some below
      | _ => fail .stackUnderflow
  | clear =>
      noArgs clear args
      modify (·.withStack [])
      return none
  | len =>
      match ← single len args with
      | .str s => return some (count s.length)
      | .list items => return some (count items.length)
      | other => fail (.typeError ("len expects a string or list, got " ++ other.typeName))
  | str =>
      let v ← single str args
      return some (.str (plainText (host.encoder (← get)) v))
  | type =>
      let v ← single type args
      return some (.str v.typeName)

/-- Binds every builtin in a frame. -/
def install (s : Store) (f : FrameId) : Store :=
  s.setAll f (all.map fun b => (b.name, .native b))

end PeerScript.Builtin
