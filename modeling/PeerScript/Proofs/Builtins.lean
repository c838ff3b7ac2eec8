import Mathlib
import PeerScript.Proofs.Steps

/-!
# Builtins succeed or leave no trace

A builtin that fails leaves the machine as it was, also where values have been taken off the stack
before it is known that the builtin cannot finish.  A builtin that succeeds has its net effect on
the stack: `Effect` is the table of them, one line for each builtin, and a call fails only on
arguments and stacks that are not in the table.  No builtin binds a name.

Three builtins tell something of their argument.  What they tell depends on the argument, the
registered types and what the objects in the argument say of themselves, and on nothing else of the
machine.
-/

set_option autoImplicit false

namespace PeerScript

open Run

/-! ## What the text of a value depends on -/

mutual

/-- The objects in a value. -/
def Value.objects : Value → List Object
  | .list items => Value.objectsAll items
  | .closure _ body _ => body.objects
  | .handle _ _ fields => Value.objectsAll fields
  | .object o => [o]
  | _ => []

/-- The objects in values. -/
def Value.objectsAll : List Value → List Object
  | [] => []
  | v :: rest => v.objects ++ Value.objectsAll rest

/-- The objects in a tree. -/
def Tree.objects : Tree → List Object
  | .literal v => v.objects
  | .reference _ => []
  | .call _ args => Tree.objectsAll args

/-- The objects in trees. -/
def Tree.objectsAll : List Tree → List Object
  | [] => []
  | t :: rest => t.objects ++ Tree.objectsAll rest

end

namespace Encoder

variable {e e' : Encoder}

mutual

/-- The written form of a value depends on the registered types and the descriptions of the objects
in it. -/
theorem value_congr (registry : e.registry = e'.registry) : ∀ v : Value,
    (∀ o ∈ v.objects, e.describe o = e'.describe o) → e.value v = e'.value v
  | .bool _, _ | .int _, _ | .float _, _ | .str _, _ | .native _, _ => by rw [value, value]
  | .list items, same => by rw [value, value, values_congr registry items same]
  | .closure params body _, same => by rw [value, value, tree_congr registry body same]
  | .handle kind _ fields, same => by
      rw [value, value, registry, values_congr registry fields same]
  | .object o, same => by rw [value, value, same o (List.mem_singleton_self o)]

theorem values_congr (registry : e.registry = e'.registry) : ∀ vs : List Value,
    (∀ o ∈ Value.objectsAll vs, e.describe o = e'.describe o) → e.values vs = e'.values vs
  | [], _ => by rw [values, values]
  | v :: vs, same => by
      rw [values, values, value_congr registry v fun o mem => same o (List.mem_append_left _ mem),
        values_congr registry vs fun o mem => same o (List.mem_append_right _ mem)]

theorem tree_congr (registry : e.registry = e'.registry) : ∀ t : Tree,
    (∀ o ∈ t.objects, e.describe o = e'.describe o) → e.tree t = e'.tree t
  | .literal v, same => by rw [tree, tree, value_congr registry v same]
  | .reference path, _ => by rw [tree, tree]
  | .call head args, same => by
      cases head <;> rw [tree, tree, trees_congr registry args same]

theorem trees_congr (registry : e.registry = e'.registry) : ∀ ts : List Tree,
    (∀ o ∈ Tree.objectsAll ts, e.describe o = e'.describe o) → e.trees ts = e'.trees ts
  | [], _ => by rw [trees, trees]
  | t :: ts, same => by
      rw [trees, trees, tree_congr registry t fun o mem => same o (List.mem_append_left _ mem),
        trees_congr registry ts fun o mem => same o (List.mem_append_right _ mem)]

end

end Encoder

namespace Builtin

/-! ## Net effects -/

/-- What a builtin that looks at nothing but its argument tells of it. -/
inductive Tells (e : Encoder) : Builtin → Value → Value → Prop
  | lenText (s : String) : Tells e .len (.str s) (count s.length)
  | lenList (items : List Value) : Tells e .len (.list items) (count items.length)
  | str (v : Value) : Tells e .str v (.str (plainText e v))
  | type (v : Value) : Tells e .type v (.str v.typeName)

/-- The net effect of a builtin: the arguments with which it succeeds, the stack in front of it, and
the stack behind it with the value that it gives on top. -/
inductive Effect (e : Encoder) : Builtin → List Value → List Value → List Value → Prop
  | assert {args : List Value} (some : args ≠ []) (hold : ∀ v ∈ args, v.truthy = true)
      (stack : List Value) : Effect e .assert args stack stack
  | print (args stack : List Value) : Effect e .print args stack stack
  | depth (stack : List Value) : Effect e .depth [] stack (count stack.length :: stack)
  | drop (v : Value) (stack : List Value) : Effect e .drop [] (v :: stack) stack
  | dup (v : Value) (stack : List Value) : Effect e .dup [] (v :: stack) (v :: v :: stack)
  | swap (v w : Value) (stack : List Value) : Effect e .swap [] (v :: w :: stack) (w :: v :: stack)
  | clear (stack : List Value) : Effect e .clear [] stack []
  | tell {b : Builtin} {v w : Value} (told : Tells e b v w) (stack : List Value) :
      Effect e b [v] stack (w :: stack)

theorem Effect.of_swap {e : Encoder} {args stack stack' : List Value}
    (effect : Effect e .swap args stack stack') :
    args = [] ∧ ∃ v w rest, stack = v :: w :: rest := by
  cases effect with
  | swap v w rest => exact ⟨rfl, v, w, rest, rfl⟩
  | tell told => exact nomatch told

theorem Effect.of_dup {e : Encoder} {args stack stack' : List Value}
    (effect : Effect e .dup args stack stack') :
    args = [] ∧ ∃ v rest, stack = v :: rest := by
  cases effect with
  | dup v rest => exact ⟨rfl, v, rest, rfl⟩
  | tell told => exact nomatch told

/-- What is told of a value is one value. -/
theorem Tells.unique {e : Encoder} {b : Builtin} {v w w' : Value} (told : Tells e b v w)
    (told' : Tells e b v w') : w = w' := by
  cases told <;> cases told' <;> rfl

/-- What is told of a value depends on the registered types and the descriptions of the objects in
it. -/
theorem Tells.congr {e e' : Encoder} {b : Builtin} {v w : Value}
    (registry : e.registry = e'.registry) (same : ∀ o ∈ v.objects, e.describe o = e'.describe o)
    (told : Tells e b v w) : Tells e' b v w := by
  cases told with
  | lenText s => exact .lenText s
  | lenList items => exact .lenList items
  | type v => exact .type v
  | str v =>
      have text : plainText e v = plainText e' v := by
        unfold plainText
        split
        · rfl
        · rw [Encoder.encode, Encoder.encode, Encoder.value_congr registry v same]
      rw [text]
      exact .str v

/-- A stack that fits into memory has a number of values that an integer can say. -/
theorem count_eq (n : Nat) (fits : n < 2 ^ 63) : ∃ i : Int64, count n = .int i ∧ i.toInt = n :=
  ⟨_, rfl, Int64.toInt_ofNat_of_lt fits⟩

/-! ## Calls -/

section Calls

variable {σ : Type} {host : Host σ} {inside : Option (Inside σ)} {b : Builtin} {name : String}
  {args : List Value} {scope : FrameId} {m : Machine σ}

/-- How the call of a builtin ends: with its net effect and nothing else but what is printed, or
with a fault and on the machine that it was called on, if there is no net effect for the arguments
and the stack. -/
inductive Ends (e : Encoder) (b : Builtin) (args : List Value) (m : Machine σ) :
    EStateM.Result Stop (Machine σ) Unit → Prop
  | done {stack : List Value} {printed : List String}
    (quiet : b ≠ .print → printed = m.common.printed)
      (effect : Effect e b args m.session.stack stack) :
      Ends e b args m
        (.ok () { m.withStack stack with common := { m.common with printed := printed } })
  | refused (fault : Fault) (none : ∀ stack, ¬ Effect e b args m.session.stack stack) :
      Ends e b args m (.error (.failed fault) m)

/-- The value that a builtin gives is pushed behind what it does. -/
theorem callValue_native (host : Host σ) (inside : Option (Inside σ)) (b : Builtin) (name : String)
    (args : List Value) (scope : FrameId) (m : Machine σ) :
    callValue host inside (.native b) name args scope m =
      (b.run host args >>= fun answer => answer.elim (pure ()) push : Run σ Unit) m := by
  refine congrFun (congrArg (b.run host args >>= ·) (funext fun answer => ?_)) m
  cases answer <;> rfl

theorem ends_of_gives {v : Value} {rest : List Value}
    (ran : b.run host args m = .ok (some v) (m.withStack rest))
    (effect : Effect (host.encoder m) b args m.session.stack (v :: rest)) :
    Ends (host.encoder m) b args m (callValue host inside (.native b) name args scope m) := by
  rw [callValue_native, bind_of_ok ran]
  exact .done (fun _ => rfl) effect

theorem ends_of_takes {rest : List Value} (ran : b.run host args m = .ok none (m.withStack rest))
    (effect : Effect (host.encoder m) b args m.session.stack rest) :
    Ends (host.encoder m) b args m (callValue host inside (.native b) name args scope m) := by
  rw [callValue_native, bind_of_ok ran]
  exact .done (fun _ => rfl) effect

theorem ends_of_fails {fault : Fault} (ran : b.run host args m = .error (.failed fault) m)
    (none : ∀ stack, ¬ Effect (host.encoder m) b args m.session.stack stack) :
    Ends (host.encoder m) b args m (callValue host inside (.native b) name args scope m) := by
  rw [callValue_native, bind_of_error ran]
  exact .refused fault none

/-! ### Runs -/

theorem pop_of_nil (stack : m.session.stack = []) :
    (pop : Run σ Value) m = .error (.failed .stackUnderflow) m := by
  rw [pop_eq, stack]
  rfl

theorem pop_of_cons {v : Value} {rest : List Value} (stack : m.session.stack = v :: rest) :
    (pop : Run σ Value) m = .ok v (m.withStack rest) := by
  rw [pop_eq, stack]
  rfl

theorem run_assert_cons (v : Value) (rest : List Value) : Builtin.run host .assert (v :: rest) m =
    (if (v :: rest).all Value.truthy then pure none
      else fail .assertionFailed : Run σ (Option Value)) m := rfl

theorem run_drop_eq :
    Builtin.run host .drop [] m = (pop >>= fun _ => pure none : Run σ (Option Value)) m := rfl

theorem run_dup_eq : Builtin.run host .dup [] m =
    (match m.session.stack with
      | [] => fail .stackUnderflow
      | v :: _ => return some v : Run σ (Option Value)) m := rfl

theorem run_swap_eq : Builtin.run host .swap [] m =
    (match m.session.stack with
      | v :: w :: rest => do
          modify (·.withStack (v :: rest))
          return some w
      | _ => fail .stackUnderflow : Run σ (Option Value)) m := rfl

theorem run_drop_of_cons {v : Value} {rest : List Value} (stack : m.session.stack = v :: rest) :
    Builtin.run host .drop [] m = .ok none (m.withStack rest) := by
  rw [run_drop_eq, bind_of_ok (pop_of_cons stack)]
  rfl

theorem run_dup_of_cons {v : Value} {rest : List Value} (stack : m.session.stack = v :: rest) :
    Builtin.run host .dup [] m = .ok (some v) m := by
  rw [run_dup_eq, stack]
  rfl

theorem run_swap_of_cons {v w : Value} {rest : List Value}
    (stack : m.session.stack = v :: w :: rest) :
    Builtin.run host .swap [] m = .ok (some w) (m.withStack (v :: rest)) := by
  rw [run_swap_eq, stack]
  rfl

/-- The two topmost values are exchanged one by one.  If there is no second one, then the first one,
which has been taken already, is put back. -/
def swapOneByOne : Run σ (Option Value) := do
  let top ← pop
  let below ← tryCatch pop fun stop => do
    push top
    throw stop
  push top
  return some below

/-- To look at two values before the first one is taken is no different. -/
theorem run_swap_eq_swapOneByOne (m : Machine σ) :
    Builtin.run host .swap [] m = swapOneByOne m := by
  rw [run_swap_eq, swapOneByOne]
  match stack : m.session.stack with
  | [] => rw [bind_of_error (pop_of_nil stack)]; rfl
  | [v] =>
      rw [bind_of_ok (pop_of_cons stack)]
      have back : (m.withStack []).push v = m := by
        change m.withStack [v] = m
        rw [← stack]
        rfl
      change _ = EStateM.Result.error (Stop.failed .stackUnderflow) ((m.withStack []).push v)
      rw [back]
      rfl
  | v :: w :: rest =>
      rw [bind_of_ok (pop_of_cons stack)]
      rfl

/-! ### Ends of calls -/

theorem call_ends (host : Host σ) (inside : Option (Inside σ)) (b : Builtin) (name : String)
    (args : List Value) (scope : FrameId) (m : Machine σ) :
    Ends (host.encoder m) b args m (callValue host inside (.native b) name args scope m) := by
  cases b with
  | assert =>
      cases args with
      | nil => exact ends_of_fails rfl nofun
      | cons v rest =>
          by_cases hold : (v :: rest).all Value.truthy = true
          · refine ends_of_takes ((run_assert_cons v rest).trans (congrFun (if_pos hold) m)) ?_
            exact .assert (List.cons_ne_nil v rest) (List.all_eq_true.mp hold) _
          · refine ends_of_fails ((run_assert_cons v rest).trans (congrFun (if_neg hold) m)) ?_
            intro stack effect
            cases effect with
            | assert _ holds => exact hold (List.all_eq_true.mpr holds)
            | tell told => exact nomatch told
  | print =>
      rw [callValue_native]
      exact .done (absurd rfl) (.print args _)
  | depth =>
      cases args with
      | nil => exact ends_of_gives rfl (.depth _)
      | cons v rest => exact ends_of_fails rfl nofun
  | drop =>
      cases args with
      | cons v rest => exact ends_of_fails rfl nofun
      | nil =>
          cases stack : m.session.stack with
          | nil =>
              refine ends_of_fails (run_drop_eq.trans (bind_of_error (pop_of_nil stack))) ?_
              rw [stack]
              exact nofun
          | cons v rest =>
              refine ends_of_takes (run_drop_of_cons stack) ?_
              rw [stack]
              exact .drop v rest
  | dup =>
      cases args with
      | cons v rest => exact ends_of_fails rfl nofun
      | nil =>
          cases stack : m.session.stack with
          | nil =>
              have failed : Builtin.run host .dup [] m = .error (.failed .stackUnderflow) m := by
                rw [run_dup_eq, stack]
                rfl
              refine ends_of_fails failed ?_
              rw [stack]
              exact nofun
          | cons v rest =>
              refine ends_of_gives (run_dup_of_cons stack) ?_
              rw [stack]
              exact .dup v rest
  | swap =>
      cases args with
      | cons v rest => exact ends_of_fails rfl nofun
      | nil =>
          match stack : m.session.stack with
          | [] | [_] =>
              have failed : Builtin.run host .swap [] m = .error (.failed .stackUnderflow) m := by
                rw [run_swap_eq, stack]
                rfl
              refine ends_of_fails failed ?_
              rw [stack]
              exact nofun
          | v :: w :: rest =>
              refine ends_of_gives (run_swap_of_cons stack) ?_
              rw [stack]
              exact .swap v w rest
  | clear =>
      cases args with
      | nil => exact ends_of_takes rfl (.clear _)
      | cons v rest => exact ends_of_fails rfl nofun
  | len =>
      match args with
      | [] | _ :: _ :: _ => exact ends_of_fails rfl nofun
      | [v] =>
          cases v with
          | str s => exact ends_of_gives rfl (.tell (.lenText s) _)
          | list items => exact ends_of_gives rfl (.tell (.lenList items) _)
          | _ => exact ends_of_fails rfl nofun
  | str =>
      match args with
      | [] | _ :: _ :: _ => exact ends_of_fails rfl nofun
      | [v] => exact ends_of_gives rfl (.tell (.str v) _)
  | type =>
      match args with
      | [] | _ :: _ :: _ => exact ends_of_fails rfl nofun
      | [v] => exact ends_of_gives rfl (.tell (.type v) _)

/-- The call of a builtin binds nothing, however it ends. -/
theorem Ends.store_eq {e : Encoder} {r : EStateM.Result Stop (Machine σ) Unit}
    (ends : Ends e b args m r) :
    (behind r).common.store = m.common.store := by
  cases ends <;> rfl

/-- A call that has succeeded has had its net effect. -/
theorem Ends.effect {e : Encoder} {m' : Machine σ} (ends : Ends e b args m (.ok () m')) :
    Effect e b args m.session.stack m'.session.stack := by
  cases ends with
  | done _ effect => exact effect

theorem call_drop_of_cons {v : Value} {rest : List Value} (stack : m.session.stack = v :: rest) :
    callValue host inside (.native .drop) name [] scope m = .ok () (m.withStack rest) := by
  rw [callValue_native, bind_of_ok (run_drop_of_cons stack)]
  rfl

theorem call_dup_of_cons {v : Value} {rest : List Value} (stack : m.session.stack = v :: rest) :
    callValue host inside (.native .dup) name [] scope m = .ok () (m.push v) := by
  rw [callValue_native, bind_of_ok (run_dup_of_cons stack)]
  rfl

theorem call_swap_of_cons {v w : Value} {rest : List Value}
    (stack : m.session.stack = v :: w :: rest) :
    callValue host inside (.native .swap) name [] scope m =
      .ok () (m.withStack (w :: v :: rest)) := by
  rw [callValue_native, bind_of_ok (run_swap_of_cons stack)]
  rfl

/-- Two exchanges restore the machine. -/
theorem swap_swap {m' : Machine σ}
    (swapped : callValue host inside (.native .swap) name args scope m = .ok () m') :
    callValue host inside (.native .swap) name args scope m' = .ok () m := by
  obtain ⟨rfl, v, w, rest, stack⟩ :=
    (swapped ▸ call_ends host inside .swap name args scope m).effect.of_swap
  rw [call_swap_of_cons stack] at swapped
  cases swapped
  have exchanged : (m.withStack (w :: v :: rest)).session.stack = w :: v :: rest := rfl
  have back : m.withStack (v :: w :: rest) = m := by
    rw [← stack]
    rfl
  rw [call_swap_of_cons exchanged]
  exact congrArg (EStateM.Result.ok ()) back

/-- A copy that is dropped restores the machine. -/
theorem dup_drop {m' : Machine σ}
    (copied : callValue host inside (.native .dup) name args scope m = .ok () m') :
    callValue host inside (.native .drop) name args scope m' = .ok () m := by
  obtain ⟨rfl, v, rest, stack⟩ :=
    (copied ▸ call_ends host inside .dup name args scope m).effect.of_dup
  rw [call_dup_of_cons stack] at copied
  cases copied
  exact call_drop_of_cons rfl

/-- Builtins are atomic.  The call of a builtin either fails and leaves the machine as it was, on
arguments and a stack for which it has no net effect, or has its net effect on the stack; no binding
changes, however it ends.  What is told of a value depends on the registered types and on what the
objects in the value say of themselves, and it is one value; a number of values on a stack or in a
list is that number.  An exchange takes the two topmost values one by one.  Two exchanges, or a copy
that is dropped, restore every machine on which the first of the two succeeds. -/
theorem builtins_atomic (host : Host σ) (inside : Option (Inside σ)) (b : Builtin) (name : String)
    (args : List Value) (scope : FrameId) (m : Machine σ) :
    Ends (host.encoder m) b args m (callValue host inside (.native b) name args scope m) ∧
    (behind (callValue host inside (.native b) name args scope m)).common.store = m.common.store ∧
    (∀ v w, Tells (host.encoder m) b v w →
      (∀ w', Tells (host.encoder m) b v w' → w' = w) ∧
      ∀ m' : Machine σ, m'.session.registry = m.session.registry →
        (∀ o ∈ v.objects, host.describe m'.common.world o = host.describe m.common.world o) →
        Tells (host.encoder m') b v w) ∧
    (∀ n, n < 2 ^ 63 → ∃ i : Int64, count n = .int i ∧ i.toInt = n) ∧
    Builtin.run host .swap [] m = swapOneByOne m ∧
    (∀ m', callValue host inside (.native .swap) name args scope m = .ok () m' →
      callValue host inside (.native .swap) name args scope m' = .ok () m) ∧
    ∀ m', callValue host inside (.native .dup) name args scope m = .ok () m' →
      callValue host inside (.native .drop) name args scope m' = .ok () m := by
  have ends := call_ends host inside b name args scope m
  refine ⟨ends, ends.store_eq, fun v w told => ⟨fun w' told' => told'.unique told, ?_⟩, count_eq,
    run_swap_eq_swapOneByOne m, fun m' => swap_swap, fun m' => dup_drop⟩
  intro m' registry same
  exact told.congr registry.symm fun o mem => (same o mem).symm

end Calls

end Builtin

end PeerScript
