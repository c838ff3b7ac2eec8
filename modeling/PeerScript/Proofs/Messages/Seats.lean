import PeerScript.Proofs.Closures.Lives
import PeerScript.Proofs.Globals
import PeerScript.Proofs.Reception

/-!
# The sessions of a new server

A server that has been made holds no instances but those with numbers that have been given, and its
frames hold no functions with homes.  So the session that a connection gets can run scripts.
-/

set_option autoImplicit false

namespace PeerScript

open Service

/-- What is bound has only numbers that have been given. -/
def Store.IsNumbered (s : Store) (serial : Nat) : Prop :=
  ∀ f, ∀ μ ∈ s.marked f, ∃ n < serial, μ = .serial n

namespace Store.IsNumbered

variable {s : Store} {serial serial' : Nat}

theorem empty : (Store.empty.alloc none).1.IsNumbered 0 := fun f μ mem => by
  rw [Store.marked_alloc, Store.marked_of_le (Nat.zero_le f)] at mem
  exact nomatch mem

theorem set (h : s.IsNumbered serial) (le : serial ≤ serial') {f : FrameId}
    {name : String} {v : Value} (marks : ∀ μ ∈ v.marks, ∃ n < serial', μ = .serial n) :
    (s.set f name v).IsNumbered serial' := by
  intro g μ mem
  rcases Store.marked_set mem with before | own
  · obtain ⟨n, lt, same⟩ := h g μ before
    exact ⟨n, Nat.lt_of_lt_of_le lt le, same⟩
  · exact marks μ own

theorem install (h : s.IsNumbered serial) (f : FrameId) :
    (Builtin.install s f).IsNumbered serial := by
  intro g μ mem
  rcases Store.marked_setAll mem with before | ⟨b, among, own⟩
  · exact h g μ before
  · obtain ⟨builtin, -, rfl⟩ := List.mem_map.mp among
    exact nomatch own

theorem bindShorthand {registry : Registry} (natural : registry.IsNatural) {globals : FrameId}
    {state state' : Store × Nat} {shorthand : String × String} (h : state.1.IsNumbered state.2)
    (bound : Server.bindShorthand registry globals state shorthand = .ok state') :
    state'.1.IsNumbered state'.2 := by
  obtain ⟨store, serial⟩ := state
  unfold Server.bindShorthand at bound
  dsimp only at bound
  cases parsed : Script.parse .rho ⟨store.contains globals, registry⟩ shorthand.2 serial with
  | error fault =>
      rw [parsed] at bound
      cases bound
  | ok result =>
      rw [parsed] at bound
      cases bound
      obtain ⟨grows, marks⟩ := marks_of_parse natural parsed
      refine h.set grows fun μ mem => ?_
      rw [Value.marks, List.mem_append, List.mem_map, List.mem_map] at mem
      rcases mem with ⟨f, own, -⟩ | ⟨ν, mem, rfl⟩
      · cases own
      · obtain ⟨n, lt, rfl⟩ := marks ν mem
        exact ⟨n, lt, rfl⟩

theorem shorthands {registry : Registry} (natural : registry.IsNatural) {globals : FrameId}
    (shorthands : List (String × String)) :
    ∀ {state state' : Store × Nat}, state.1.IsNumbered state.2 →
      shorthands.foldlM (Server.bindShorthand registry globals) state = .ok state' →
      state'.1.IsNumbered state'.2 := by
  induction shorthands with
  | nil =>
      rintro state _ h ⟨⟩
      exact h
  | cons shorthand shorthands ih =>
      intro state state' h folded
      rw [List.foldlM_cons] at folded
      cases bound : Server.bindShorthand registry globals state shorthand with
      | error fault =>
          rw [bound] at folded
          exact nomatch folded
      | ok next =>
          rw [bound] at folded
          exact ih (bindShorthand natural h bound) folded

theorem of_new {settings : Settings} {registry : Registry} {number : Nat} {s : Server}
    (natural : registry.IsNatural) (made : Server.new settings registry number = .ok s) :
    s.store.IsNumbered s.serial ∧ s.registry = registry := by
  unfold Server.new at made
  change ((Server.shorthands registry settings.bootstrap).foldlM (Server.bindShorthand registry 0)
    (globalsOf number, 0) >>= _) = _ at made
  have object : ∀ (o : Object) (μ : Mark), μ ∈ (Value.object o).marks → ∃ n < 0, μ = .serial n :=
    fun _ _ => List.not_mem_nil.elim
  have first : (globalsOf number).IsNumbered 0 :=
    ((empty.install 0).set (Nat.le_refl 0) (object _)).set (Nat.le_refl 0) (object _)
  cases folded : (Server.shorthands registry settings.bootstrap).foldlM
      (Server.bindShorthand registry 0) (globalsOf number, 0) with
  | error fault =>
      rw [folded] at made
      exact nomatch made
  | ok state =>
      rw [folded] at made
      cases made
      exact ⟨@shorthands registry natural 0 _ (globalsOf number, 0) state first folded, rfl⟩

end Store.IsNumbered

/-- The life of the session that a connection to a new server gets. -/
theorem Network.life_of_new {settings : Settings} {registry : Registry} {number : Nat} {s : Server}
    (natural : registry.IsNatural) (keeps : registry.KeepsMarks)
    (made : Server.new settings registry number = .ok s) (host : Host Network)
    (n : Network) (i : Nat) (seat : Seat) :
    (s.seated seat).idle.lookup seat = some (.new s.registry s.store.frames.size) ∧
      Life host (n.machineOf i (s.seated seat) seat (.new s.registry s.store.frames.size)) [] := by
  obtain ⟨numbered, rfl⟩ := Store.IsNumbered.of_new natural made
  have new := Server.isNew_of_new natural made
  have idle : (s.seated seat).idle = [(seat, .new s.registry s.store.frames.size)] := by
    change Association.put seat _ s.idle = _
    rw [new.idle]
    rfl
  have alone : ((s.seated seat).vacated seat).idle = [] := by
    change Association.erase seat (s.seated seat).idle = []
    rw [idle]
    simp [Association.erase]
  refine ⟨by rw [idle]; simp, .start ?_⟩
  have common : ∀ world : Network, ((s.seated seat).vacated seat).common world =
      ⟨(s.store.alloc (some s.globals)).1, s.serial, s.printed, world,
        s.globals :: s.held, s.watched⟩ :=
    fun world => by
      rw [Server.common, alone]
      rfl
  rw [common]
  refine ⟨fun f owns => ?_, ⟨List.forall_mem_nil _, fun f μ mem => ?_⟩, keeps, fun _ _ => trivial⟩
  · change f < (s.store.alloc (some s.globals)).1.frames.size
    rw [Store.size_alloc]
    change f ∈ [s.store.frames.size] ++ s.globals :: s.held at owns
    rw [new.held, new.globals] at owns
    rcases List.mem_cons.mp owns with rfl | root
    · exact Nat.lt_succ_self _
    · rw [List.mem_singleton.mp root]
      exact Nat.succ_pos _
  · have mem : μ ∈ (s.store.alloc (some s.globals)).1.marked f := mem
    rw [Store.marked_alloc] at mem
    obtain ⟨k, lt, rfl⟩ := numbered f μ mem
    exact lt

end PeerScript
