import PeerScript.Proofs.Alike.Parsing
import PeerScript.Proofs.Alike.Stores
import PeerScript.Service.Server

/-!
# The global scope of a new server

A new server has one frame.  It binds the builtins, and beside them only the reserved names, by
which scripts reach the network; and no function in it has a home.
-/

set_option autoImplicit false

namespace PeerScript.Service

/-- The names by which scripts reach the network. -/
def reserved : List String := [peerName, serverName, "connect", "enter", "join", "leave"]

/-- The name is reserved. -/
def IsReserved (name : String) : Prop := name ∈ reserved

instance : DecidablePred IsReserved := fun name => inferInstanceAs (Decidable (name ∈ reserved))

/-- A store of one frame, which binds builtins and reserved names. -/
structure IsGlobal (s : Store) : Prop where
  size : s.frames.size = 1
  parent : s.parent? 0 = none
  offers : ∀ b ∈ s.bindings 0, ¬ IsReserved b.1 → ∃ n : Builtin, n.name = b.1 ∧ b.2 = .native n

namespace IsGlobal

variable {s : Store}

theorem empty : IsGlobal (Store.empty.alloc none).1 where
  size := rfl
  parent := rfl
  offers := fun _ mem => nomatch mem

theorem nonempty (h : IsGlobal s) : 0 < s.frames.size := by
  rw [h.size]
  decide

theorem set (h : IsGlobal s) (name : String) (v : Value)
    (offer : ¬ IsReserved name → ∃ n : Builtin, n.name = name ∧ v = .native n) :
    IsGlobal (s.set 0 name v) := by
  have bindings : (s.set 0 name v).bindings 0 = Association.put name v (s.bindings 0) :=
    Store.bindings_set v h.nonempty
  have among : ∀ b ∈ (s.set 0 name v).bindings 0, b = (name, v) ∨ b ∈ s.bindings 0 := by
    intro b mem
    rw [bindings, Association.put, List.mem_cons] at mem
    exact mem.imp_right List.mem_of_mem_filter
  refine ⟨(Store.size_set v).trans h.size, (Store.parent?_set v).trans h.parent, ?_⟩
  intro b mem shown
  rcases among b mem with rfl | mem
  · exact offer shown
  · exact h.offers b mem shown

theorem install (h : IsGlobal s) : IsGlobal (Builtin.install s 0) := by
  have natives : ∀ (builtins : List Builtin) (s : Store), IsGlobal s →
      IsGlobal (s.setAll 0 (builtins.map fun b => (b.name, .native b))) := by
    intro builtins
    induction builtins with
    | nil => exact fun s h => h
    | cons b builtins ih =>
        intro s h
        rw [List.map_cons, Store.setAll, List.foldl_cons]
        exact ih _ (h.set b.name (.native b) fun _ => ⟨b, rfl, rfl⟩)
  exact natives Builtin.all s h

/-- The builtins are offered under names that are not reserved. -/
theorem offersAlike (h : IsGlobal s) :
    OffersAlike IsReserved (s.bindings 0) (s.bindings 0) := by
  intro name shown
  refine ⟨rfl, fun v found => ?_⟩
  obtain ⟨before, after, split, -⟩ := List.lookup_eq_some_iff.mp found
  have mem : (name, v) ∈ s.bindings 0 := by
    rw [split]
    exact List.mem_append_right before List.mem_cons_self
  obtain ⟨n, -, same⟩ := h.offers (name, v) mem shown
  exact ⟨n, same⟩

end IsGlobal

/-- A shorthand is bound to a function that has been read. -/
theorem body_of_bindShorthand {registry : Registry} {state state' : Store × Nat}
    {shorthand : String × String}
    (bound : Server.bindShorthand registry 0 state shorthand = .ok state') :
    ∃ body, Script.parse .rho ⟨state.1.contains 0, registry⟩ shorthand.2 state.2 =
      .ok (body, state'.2) ∧ state'.1 = state.1.set 0 shorthand.1 (.closure [] body none) := by
  obtain ⟨store, serial⟩ := state
  unfold Server.bindShorthand at bound
  dsimp only at bound
  cases parsed : Script.parse .rho ⟨store.contains 0, registry⟩ shorthand.2 serial with
  | error fault =>
      rw [parsed] at bound
      exact nomatch bound
  | ok result =>
      rw [parsed] at bound
      cases bound
      exact ⟨_, rfl, rfl⟩

/-- What binding a shorthand keeps, binding all of them keeps. -/
theorem shorthands_keep {registry : Registry} {P : Store → Prop}
    (shorthands : List (String × String)) (step : ∀ sh ∈ shorthands, ∀ state state', P state.1 →
      Server.bindShorthand registry 0 state sh = .ok state' → P state'.1) :
    ∀ {state state' : Store × Nat}, P state.1 →
      shorthands.foldlM (Server.bindShorthand registry 0) state = .ok state' → P state'.1 := by
  induction shorthands with
  | nil =>
      intro state state' h folded
      cases folded
      exact h
  | cons shorthand shorthands ih =>
      intro state state' h folded
      rw [List.foldlM_cons] at folded
      cases bound : Server.bindShorthand registry 0 state shorthand with
      | error fault =>
          rw [bound] at folded
          exact nomatch folded
      | ok next =>
          rw [bound] at folded
          exact ih (fun sh mem => step sh (List.mem_cons_of_mem _ mem))
            (step _ List.mem_cons_self _ _ h bound) folded

/-- A server in which no session has run. -/
structure Server.IsNew (s : Server) : Prop where
  globals : s.globals = 0
  store : IsGlobal s.store
  natural : s.registry.IsNatural
  idle : s.idle = []
  held : s.held = []
  watched : s.watched = []

/-- The global scope before its shorthands are bound. -/
def globalsOf (number : Nat) : Store :=
  ((Builtin.install (Store.empty.alloc none).1 0).set 0 peerName (.object ⟨peerName, number⟩)).set 0
    serverName (.object ⟨serverName, number⟩)

theorem globalsOf_global (number : Nat) : IsGlobal (globalsOf number) := by
  have isPeer : IsReserved peerName := by decide
  have isServer : IsReserved serverName := by decide
  have first := IsGlobal.empty.install.set peerName (.object ⟨peerName, number⟩)
    fun shown => absurd isPeer shown
  exact first.set serverName _ fun shown => absurd isServer shown

/-- A new server has no sessions, and its store has come from the global scope by binding
shorthands. -/
theorem Server.store_of_new {settings : Settings} {registry : Registry} {number : Nat} {s : Server}
    (made : Server.new settings registry number = .ok s) : s.globals = 0 ∧ s.registry = registry ∧
      s.idle = [] ∧ s.held = [] ∧ s.watched = [] ∧ ∃ serial,
        (shorthands registry settings.bootstrap).foldlM (bindShorthand registry 0)
          (globalsOf number, 0) = .ok (s.store, serial) := by
  unfold Server.new at made
  change ((shorthands registry settings.bootstrap).foldlM (bindShorthand registry 0)
    (globalsOf number, 0) >>= _) = _ at made
  cases folded : (shorthands registry settings.bootstrap).foldlM (bindShorthand registry 0)
      (globalsOf number, 0) with
  | error fault =>
      rw [folded] at made
      exact nomatch made
  | ok state =>
      rw [folded] at made
      cases made
      exact ⟨rfl, rfl, rfl, rfl, rfl, _, rfl⟩

theorem Server.isNew_of_new {settings : Settings} {registry : Registry} {number : Nat} {s : Server}
    (natural : registry.IsNatural) (made : Server.new settings registry number = .ok s) :
    s.IsNew := by
  have named : ∀ sh ∈ shorthands registry settings.bootstrap, IsReserved sh.1 := by
    simp [shorthands, IsReserved, reserved]
  obtain ⟨globals, rfl, idle, held, watched, serial, folded⟩ := store_of_new made
  refine ⟨globals, ?_, natural, idle, held, watched⟩
  refine shorthands_keep (P := IsGlobal) _ (fun sh mem state state' h bound => ?_)
    (globalsOf_global number) folded
  obtain ⟨body, -, store⟩ := body_of_bindShorthand bound
  rw [store]
  exact h.set sh.1 _ fun shown => absurd (named sh mem) shown

end PeerScript.Service
