/-!
# Listeners of an event

Listeners are called in the order in which they subscribed.  Each call may subscribe or unsubscribe
listeners, itself included; who is called has been settled when the event is raised.
-/

set_option autoImplicit false

namespace PeerScript

/-- The listeners of one event, each under the number of its subscription. -/
structure Listeners (η : Type) where
  entries : List (Nat × η)
  /-- the number of the next subscription -/
  next : Nat
  deriving Inhabited

namespace Listeners

variable {η : Type}

/-- No listeners. -/
def empty : Listeners η := ⟨[], 1⟩

/-- One more listener, and the number of its subscription. -/
def subscribe (l : Listeners η) (listener : η) : Listeners η × Nat :=
  (⟨l.entries ++ [(l.next, listener)], l.next + 1⟩, l.next)

/-- The listeners without one subscription, and whether there was such a one. -/
def unsubscribe (l : Listeners η) (subscription : Nat) : Listeners η × Bool :=
  let entries := l.entries.filter (·.1 ≠ subscription)
  ({ l with entries := entries }, entries.length ≠ l.entries.length)

/-- The number of listeners. -/
def size (l : Listeners η) : Nat := l.entries.length

/-- Calls every listener of `l` once, in order, on a state that they may change. -/
def emit {τ : Type} (l : Listeners η) (call : η → τ → τ) (state : τ) : τ :=
  l.entries.foldl (fun state entry => call entry.2 state) state

end Listeners

end PeerScript
