import PeerScript.Association
import PeerScript.Fault
import PeerScript.Value

/-!
# Registered types

A registry tells which type a name makes and under which name a type is written.  The two tables are
kept apart: registering a type replaces the entry of its name and, separately, the entry of its
kind.
-/

set_option autoImplicit false

namespace PeerScript

/-- A type whose instances have a written form `name(field, ...)`.

An instance is known by the fields that it is written with, so writing one needs no function of its
own: `decode` makes of the values of a call the fields that the new instance is written with, or
says why it cannot.  It is a function of these values.  A type of which the same values make
different instances, or whose instances are written with other fields later on, is no type here. -/
structure WireType where
  name : String
  kind : Kind
  decode : List Value → Except String (List Value)

/-- The registered types, by name and by kind. -/
structure Registry where
  byName : List (String × WireType)
  byKind : List (Kind × WireType)

namespace Registry

/-- No type at all. -/
def empty : Registry := ⟨[], []⟩

/-- The registry with one more type. -/
def register (r : Registry) (type : WireType) : Registry :=
  ⟨Association.put type.name type r.byName, Association.put type.kind type r.byKind⟩

/-- The type that a name makes. -/
def named? (r : Registry) (name : String) : Option WireType := r.byName.lookup name

/-- The type as which instances of a kind are written. -/
def ofKind? (r : Registry) (kind : Kind) : Option WireType := r.byKind.lookup kind

/-- Whether a name makes a type. -/
def contains (r : Registry) (name : String) : Bool := (r.named? name).isSome

/-- All names, in the order of their characters. -/
def names (r : Registry) : List String := Association.sortedNames r.byName

/-- A new instance with the given serial number. -/
def decode (r : Registry) (name : String) (values : List Value) (serial : Nat) :
    Except Fault Value :=
  match r.named? name with
  | none => .error (.unknownType name)
  | some type =>
      match type.decode values with
      | .ok fields => .ok (.handle type.kind serial fields)
      | .error reason => .error (.undecodable name reason)

end Registry

/-- A point in space, written with three floating point numbers. -/
def WireType.vector3 : WireType where
  name := "Vector3"
  kind := ⟨"Vector3", "Vector3"⟩
  decode
    | [x, y, z] => [x, y, z].mapM fun v =>
        match v.float? with
        | some f => .ok (.float f)
        | none => .error ("expected a number, got " ++ v.typeName)
    | values => .error ("expected 3 components, got " ++ toString values.length)

/-- The registry of a server. -/
def Registry.standard : Registry := Registry.empty.register .vector3

end PeerScript
