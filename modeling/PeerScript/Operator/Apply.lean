import PeerScript.Fault
import PeerScript.Value

/-!
# What operators compute

Operators work on values in the order in which they were pushed.  Integer arithmetic is exact: a
result outside the 64-bit range is a fault and never wraps.  As soon as one operand is a floating
point number, both are.
-/

set_option autoImplicit false

namespace PeerScript.Operator

/-- The fault of an operator whose operand has the wrong type. -/
def refuse (operator : Operator) (operands : List Value) : Fault :=
  .typeError ("cannot apply " ++ operator.symbol ++ " to " ++
    " and ".intercalate (operands.map Value.typeName))

/-- The integers of 64 bits. -/
def inRange (n : Int) : Bool := -9223372036854775808 ≤ n && n < 9223372036854775808

/-- An integer as a value, if 64 bits hold it. -/
def exactly (n : Int) : Except Fault Value :=
  if inRange n then .ok (.int (Int64.ofInt n)) else .error .overflow

/-- Arithmetic on two integers.  A quotient is rounded toward zero, and a remainder has the sign of
the dividend; it exists only where the quotient does. -/
def integer (operator : Operator) (a b : Int64) : Except Fault Value :=
  let x := a.toInt
  let y := b.toInt
  match operator with
  | add => exactly (x + y)
  | sub => exactly (x - y)
  | mul => exactly (x * y)
  | div => if y = 0 then .error .divisionByZero else exactly (x.tdiv y)
  | rem =>
      if y = 0 then .error .divisionByZero
      else if inRange (x.tdiv y) then exactly (x.tmod y) else .error .overflow
  | _ => .error (refuse operator [.int a, .int b])

/-- Arithmetic on two floating point numbers. -/
def floating (operator : Operator) (x y : Float) : Except Fault Value :=
  match operator with
  | add => .ok (.float (x + y))
  | sub => .ok (.float (x - y))
  | mul => .ok (.float (x * y))
  | div => .ok (.float (x / y))
  | rem => .ok (.float (Number.Binary64.remainder x y))
  | _ => .error (refuse operator [.float x, .float y])

/-- Arithmetic on two numbers. -/
def arithmetic (operator : Operator) (a b : Value) : Except Fault Value :=
  match a, b with
  | .int x, .int y => integer operator x y
  | _, _ =>
      match a.float?, b.float? with
      | some x, some y => floating operator x y
      | _, _ => .error (refuse operator [a, b])

/-- The sum of two numbers, or two texts or two lists put together. -/
def sum (a b : Value) : Except Fault Value :=
  match a, b with
  | .str s, .str t => .ok (.str (s ++ t))
  | .list xs, .list ys => .ok (.list (xs ++ ys))
  | _, _ => arithmetic add a b

/-- The order of two elements of a linear order. -/
def order {α : Type} [LT α] [DecidableLT α] (a b : α) : Ordering :=
  if a < b then .lt else if b < a then .gt else .eq

/-- The order of two floating point numbers.  One that is no number has no place in it. -/
def floatOrder? (x y : Float) : Option Ordering :=
  if x < y then some .lt else if y < x then some .gt else if x == y then some .eq else none

/-- How two values compare: `none` if they have no order, and inside it `none` if one of them is no
number.  Texts compare character by character. -/
def ordering? (a b : Value) : Option (Option Ordering) :=
  match a, b with
  | .int x, .int y => some (some (order x.toInt y.toInt))
  | .str s, .str t => some (some (order s t))
  | _, _ =>
      match a.float?, b.float? with
      | some x, some y => some (floatOrder? x y)
      | _, _ => none

/-- Whether a comparison holds of two values in the given order. -/
def admits (operator : Operator) (o : Ordering) : Bool :=
  match operator with
  | lt => o == .lt
  | le => o != .gt
  | gt => o == .gt
  | ge => o != .lt
  | _ => false

/-- Comparison of two values.  Nothing holds of what is no number. -/
def compare (operator : Operator) (a b : Value) : Except Fault Value :=
  match ordering? a b with
  | none => .error (refuse operator [a, b])
  | some none => .ok (.bool false)
  | some (some o) => .ok (.bool (operator.admits o))

/-- The result for one operand. -/
def applyOne (operator : Operator) (a : Value) : Except Fault Value :=
  match operator, a with
  | not, _ => .ok (.bool (!a.truthy))
  | neg, .int i => exactly (-i.toInt)
  | neg, .float x => .ok (.float (-x))
  | neg, _ => .error (refuse neg [a])
  | _, _ => .error .stackUnderflow

/-- The result for two operands.  Both operands of a logical operator have a value already, so
nothing is cut short. -/
def applyTwo (operator : Operator) (a b : Value) : Except Fault Value :=
  match operator with
  | and => .ok (.bool (a.truthy && b.truthy))
  | or => .ok (.bool (a.truthy || b.truthy))
  | eq => .ok (.bool (a == b))
  | ne => .ok (.bool (!(a == b)))
  | lt | le | gt | ge => compare operator a b
  | add => sum a b
  | sub | mul | div | rem => arithmetic operator a b
  | not | neg => applyOne operator a

/-- The result of an operator on its operands, whose number is checked first. -/
def apply (operator : Operator) (operands : List Value) : Except Fault Value :=
  if operands.length ≠ operator.arity then
    .error (.arity operator.symbol operator.arity operands.length)
  else
    match operands with
    | [a] => operator.applyOne a
    | [a, b] => operator.applyTwo a b
    | _ => .error .stackUnderflow

end PeerScript.Operator
