import PeerScript.Script.Cursor

/-!
# Names in view

A tree says which names it binds, and in which order: a binding brings its name into view in front
of its value, and what a function binds stays inside of it.  So it can be read off a tree and the
names in view in front of it whether every name that it uses is in view where it is used.
-/

set_option autoImplicit false

namespace PeerScript

open Script (Context)

/-- A name is in view: it is bound by the script in an open body, or bound outside. -/
def Script.Context.Sees (ctx : Context) (names : List (List String)) (name : String) : Prop :=
  (names.any (·.contains name) || ctx.isBound name) = true

theorem Script.Context.Sees.of_bound {ctx : Context} {name : String}
    (bound : ctx.isBound name = true) (names : List (List String)) : ctx.Sees names name := by
  rw [Sees, bound, Bool.or_true]

/-- The names that a head binds. -/
def Head.binds : Head → List String
  | .bind name => [name]
  | .sequence | .op _ | .invoke _ | .construct _ | .list => []

/-- Whether a head finds in view what it calls. -/
def Head.InScope (ctx : Context) (names : List (List String)) : Head → Prop
  | .invoke path => ctx.Sees names path.root
  | _ => True

mutual

/-- The names that a tree binds in its scope, last one first. -/
def Tree.binds : Tree → List String
  | .call head args => Tree.bindsAll args ++ head.binds
  | _ => []

/-- The names that trees bind one after another. -/
def Tree.bindsAll : List Tree → List String
  | [] => []
  | t :: rest => Tree.bindsAll rest ++ t.binds

end

@[simp] theorem Tree.binds_literal (v : Value) : (Tree.literal v).binds = [] := rfl

@[simp] theorem Tree.binds_reference (path : Path) : (Tree.reference path).binds = [] := rfl

mutual

/-- Whether the functions of a value find in view the names that they use. -/
def Value.InScope (ctx : Context) : Value → List (List String) → Prop
  | .list items, names => Value.AreInScope ctx items names
  | .closure params body _, names => body.InScope ctx (params.reverse :: names)
  | .handle _ _ fields, names => Value.AreInScope ctx fields names
  | _, _ => True

/-- Whether the functions of values find in view the names that they use. -/
def Value.AreInScope (ctx : Context) : List Value → List (List String) → Prop
  | [], _ => True
  | v :: rest, names => v.InScope ctx names ∧ Value.AreInScope ctx rest names

/-- Whether a tree finds in view the names that it uses.  What is called is looked up behind the
arguments. -/
def Tree.InScope (ctx : Context) : Tree → List (List String) → Prop
  | .literal v, names => v.InScope ctx names
  | .reference path, names => ctx.Sees names path.root
  | .call head args, names =>
      Tree.AreInScope ctx args (names.modifyHead (head.binds ++ ·)) ∧
        head.InScope ctx (names.modifyHead ((Tree.bindsAll args ++ head.binds) ++ ·))

/-- Whether trees, one after another, find in view the names that they use. -/
def Tree.AreInScope (ctx : Context) : List Tree → List (List String) → Prop
  | [], _ => True
  | t :: rest, names =>
      t.InScope ctx names ∧ Tree.AreInScope ctx rest (names.modifyHead (t.binds ++ ·))

end

/-- To bind some names and then others is to bind all of them. -/
theorem modifyHead_append (ns ms : List String) (names : List (List String)) :
    (names.modifyHead (ns ++ ·)).modifyHead (ms ++ ·) = names.modifyHead ((ms ++ ns) ++ ·) := by
  cases names <;> simp

@[simp] theorem modifyHead_nil_append (names : List (List String)) :
    names.modifyHead ([] ++ ·) = names := by
  cases names <;> rfl

end PeerScript
