import PeerScript.Script.Language
import PeerScript.Text.Json

/-!
# Settings of a server

Settings are read from a JSON document: an object, or an array of the fields in order.  What is
missing has its default, and members of other names are passed over; a field that is given twice or
has a value of another type is refused.
-/

set_option autoImplicit false

namespace PeerScript

open Text (Json)

/-- What becomes of the stack of a connection after a reply. -/
inductive StackPolicy where
  /-- values stay, and later replies show them again -/
  | accumulate
  /-- the stack is cleared -/
  | consumeOnReply
  deriving DecidableEq, Repr, Inhabited

/-- The name of a policy in a document. -/
def StackPolicy.name : StackPolicy → String
  | accumulate => "accumulate"
  | consumeOnReply => "consume_on_reply"

/-- Where the shorthand `connect` leads to. -/
structure Bootstrap where
  host : String
  port : Nat
  deriving DecidableEq, Repr, Inhabited

/-- Settings of a server and its peer. -/
structure Settings where
  host : String
  /-- the port to listen on; zero stands for any free one -/
  port : Nat
  backlog : Nat
  language : Script.Language
  stackPolicy : StackPolicy
  /-- the number of messages kept for each direction of a connection -/
  historyLimit : Nat
  /-- seconds -/
  connectTimeout : Nat
  bootstrap : Bootstrap
  deriving DecidableEq, Repr, Inhabited

namespace Bootstrap

/-- The default address. -/
def standard : Bootstrap := ⟨"127.0.0.1", 9999⟩

end Bootstrap

namespace Settings

/-- The default settings. -/
def standard : Settings where
  host := "0.0.0.0"
  port := 9999
  backlog := 50
  language := .pi
  stackPolicy := .accumulate
  historyLimit := 64
  connectTimeout := 30
  bootstrap := .standard

/-- The settings of a server for this machine alone, on any free port. -/
def loopback : Settings := { standard with host := "127.0.0.1", port := 0 }

/-! ## Reading -/

/-- The documents of the named fields, for each one that is given.  No field is given twice, and an
array has no more items than there are fields. -/
def fields? (names : List String) : Json → Option (List (Option Json))
  | .object members => do
      let members ← members.mapM fun m => do return (String.ofList (← Json.units? m.1), m.2)
      if names.all fun n => (members.filter (·.1 == n)).length ≤ 1 then
        some (names.map fun n => members.lookup n)
      else none
  | .array items =>
      if items.length ≤ names.length then
        some (items.map some ++ List.replicate (names.length - items.length) none)
      else none
  | _ => none

/-- Reads a field, or takes its default. -/
def orDefault {α : Type} (default : α) (read : Json → Option α) : Option Json → Option α
  | none => some default
  | some document => read document

/-- A text. -/
def text? : Json → Option String
  | .text units => (Json.units? units).map String.ofList
  | _ => none

/-- A natural number of the given number of bits. -/
def natural? (bits : Nat) : Json → Option Nat
  | .natural n => if n < Nat.pow 2 bits then some n else none
  | _ => none

/-- One of some names: as a text, or as the only key of an object whose value is null. -/
def choice? {α : Type} (choices : List (String × α)) : Json → Option α
  | .object [(key, .null)] => do choices.lookup (String.ofList (← Json.units? key))
  | document => do choices.lookup (← text? document)

/-- Reads the address of the shorthand. -/
def bootstrap? (document : Json) : Option Bootstrap := do
  match ← fields? ["connect_host", "connect_port"] document with
  | [host, port] =>
      let defaults := Bootstrap.standard
      return ⟨← orDefault defaults.host text? host, ← orDefault defaults.port (natural? 16) port⟩
  | _ => none

/-- The names of the fields, in order. -/
def fieldNames : List String :=
  ["host", "port", "backlog", "language", "stack_policy", "history_limit", "connect_timeout_secs",
   "bootstrap"]

/-- Reads settings. -/
def ofJson? (document : Json) : Option Settings := do
  match ← fields? fieldNames document with
  | [host, port, backlog, language, policy, history, timeout, bootstrap] =>
      let d := standard
      let languages := [Script.Language.rho, .pi].map fun l => (l.name, l)
      let policies := [StackPolicy.accumulate, .consumeOnReply].map fun p => (p.name, p)
      return {
        host := ← orDefault d.host text? host
        port := ← orDefault d.port (natural? 16) port
        backlog := ← orDefault d.backlog (natural? 32) backlog
        language := ← orDefault d.language (choice? languages) language
        stackPolicy := ← orDefault d.stackPolicy (choice? policies) policy
        historyLimit := ← orDefault d.historyLimit (natural? 64) history
        connectTimeout := ← orDefault d.connectTimeout (natural? 64) timeout
        bootstrap := ← orDefault d.bootstrap bootstrap? bootstrap }
  | _ => none

/-- The settings that a text holds. -/
def parse (text : String) : Except Fault Settings :=
  match (Json.parse? text).bind ofJson? with
  | some settings => .ok settings
  | none => .error (.malformedSettings "no settings")

/-- The settings of a file, of which `none` says that it cannot be read as text. -/
def load (path : String) : Option String → Except Fault Settings
  | some text => parse text
  | none => .error (.noSettings ("Failed to read config " ++ path))

end Settings

end PeerScript
