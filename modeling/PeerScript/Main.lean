import PeerScript.Console

/-!
# The program

Reads the settings from the file that the first argument names, or else the variable `PYRO_CONFIG`,
and runs a console on the standard streams.  The server lives in a network of this process alone.
-/

set_option autoImplicit false

open PeerScript

namespace PeerScript.Console

/-- The text of a file, if it can be read as text. -/
def readText (path : String) : IO (Option String) := do
  try
    let bytes ← IO.FS.readBinFile path
    return (Text.Utf8.decode? bytes.toList).map String.ofList
  catch _ => return none

/-- The settings that arguments and environment name. -/
def readSettings (args : List String) : IO (Except Fault Settings) := do
  match args with
  | path :: _ => return Settings.load path (← readText path)
  | [] =>
      match ← IO.getEnv "PYRO_CONFIG" with
      | none | some "" => return .ok .standard
      | some path => return Settings.load path (← readText path)

/-- Writes what scripts have printed since there were `seen` lines of it, and tells how many there
are now. -/
def report (c : Console) (seen : Nat) : IO Nat := do
  let printed := (c.network.servers[c.server]?.map (·.printed)).getD []
  for line in (printed.take (printed.length - seen)).reverse do
    IO.eprintln line
  return printed.length

/-- Feeds lines until the input ends. `begun` holds the bytes of a line that is not complete. -/
partial def serve (c : Console) (input : IO.FS.Stream) (begun : Wire.Bytes) (seen : Nat) :
    IO UInt32 := do
  let chunk := (← input.read 4096).toList
  let parts := lines (begun ++ chunk)
  let whole := if chunk.isEmpty then parts else parts.dropLast
  let (c, shown, code) := c.run whole
  for line in shown do
    IO.println line
  (← IO.getStdout).flush
  let seen ← c.report seen
  if chunk.isEmpty || code ≠ 0 then return UInt32.ofNat code
  else c.serve input (parts.getLastD []) seen

end PeerScript.Console

/-- Runs the program. -/
def main (args : List String) : IO UInt32 := do
  let settings ← Console.readSettings args
  match settings.bind fun settings => Console.start settings (Network.empty false) with
  | .ok c => c.serve (← IO.getStdin) [] 0
  | .error fault => do
      IO.eprintln fault.message
      return UInt32.ofNat Console.failure
