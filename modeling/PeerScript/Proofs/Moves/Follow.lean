import PeerScript.Proofs.Moves

/-!
# Runs that are chains of moves

`Follows` says of a run that it is a chain of moves with the given events, whichever way it ends,
and that it leaves the invocations under way as it found them.  The rules below are those for the
parts of a run: looking names up, the builtins, and what a frame is kept for.
-/

set_option autoImplicit false

namespace PeerScript

variable {σ α β : Type} {writable : FrameId → Prop} {m m' : Machine σ}

/-- The types of a registry make instances of what they are given. -/
def Registry.KeepsMarks (r : Registry) : Prop :=
  ∀ name vs n v, r.decode name vs n = .ok v → v.marks ⊆ .serial n :: Value.marksAll vs

namespace Machine

/-- A run has left everything but the stack, the frames and the captures as it was. -/
structure Returns (m m' : Machine σ) : Prop where
  registry : m'.session.registry = m.session.registry
  ambient : m'.session.ambient = m.session.ambient
  running : m'.session.running = m.session.running
  depth : m'.session.depth = m.session.depth
  held : m'.common.held = m.common.held
  watched : m'.common.watched = m.common.watched

theorem Returns.refl (m : Machine σ) : m.Returns m := ⟨rfl, rfl, rfl, rfl, rfl, rfl⟩

theorem Returns.trans {m₁ m₂ : Machine σ} (h : m.Returns m₁) (k : m₁.Returns m₂) : m.Returns m₂ :=
  ⟨k.registry.trans h.registry, k.ambient.trans h.ambient, k.running.trans h.running,
    k.depth.trans h.depth, k.held.trans h.held, k.watched.trans h.watched⟩

/-- A machine on which something can be run. -/
structure Fit (writable : FrameId → Prop) (m : Machine σ) : Prop where
  owned : m.IsSound
  made : m.IsMade
  registry : m.session.registry.KeepsMarks
  fresh : ∀ f, m.common.store.frames.size ≤ f → writable f

/-- A machine on which something can be run in a scope. -/
structure Ready (writable : FrameId → Prop) (m : Machine σ) (scope : FrameId) : Prop
    extends m.Fit writable where
  lives : m.Lives scope
  writes : writable scope

theorem Fit.enter (fit : m.Fit writable) : m.enter.Fit writable :=
  ⟨fit.owned, ⟨fit.made.stack, fit.made.bound⟩, fit.registry, fit.fresh⟩

theorem Fit.sound {hand : List Mark} {log : List Event} (fit : m.Fit writable)
    (made : ∀ μ ∈ hand, m.Made μ) : Moment.IsSound ⟨m, hand, log⟩ := ⟨fit.owned, fit.made, made⟩

end Machine

/-- Moves lead from machines on which something can be run to such machines. -/
theorem Moves.fit {x y : Moment σ} (h : Moves writable x y) (fit : x.machine.Fit writable)
    (made : ∀ μ ∈ x.hand, x.machine.Made μ) : y.machine.Fit writable where
  owned := (h.sound (fit.sound made)).owned
  made := (h.sound (fit.sound made)).made
  registry := h.registry ▸ fit.registry
  fresh f large := fit.fresh f (Nat.le_trans h.grows.size large)

/-- A machine has become another one by moves with the given events. -/
structure Reaches (writable : FrameId → Prop) (m : Machine σ) (hand : List Mark)
    (events : List Event) (m' : Machine σ) (left : List Mark) : Prop where
  returns : m.Returns m'
  moves : ∀ log, Moves writable ⟨m, hand, log⟩ ⟨m', left, log ++ events⟩

namespace Reaches

variable {hand left left' : List Mark} {events events' : List Event}

theorem learn (h : ∀ μ ∈ left, m.Learns hand μ) : Reaches writable m hand [] m left :=
  ⟨.refl m, fun log => by
    rw [List.append_nil]
    exact .single (.learn h)⟩

theorem forget (m : Machine σ) (hand : List Mark) : Reaches writable m hand [] m [] := learn nofun

theorem trans {m₁ m₂ : Machine σ} (h : Reaches writable m hand events m₁ left)
    (k : Reaches writable m₁ left events' m₂ left') :
    Reaches writable m hand (events ++ events') m₂ left' :=
  ⟨h.returns.trans k.returns, fun log => by
    rw [← List.append_assoc]
    exact (h.moves log).trans (k.moves _)⟩

/-- A move that is no event. -/
theorem of_move (returns : m.Returns m')
    (move : ∀ log, Move writable ⟨m, hand, log⟩ ⟨m', left, log⟩) :
    Reaches writable m hand [] m' left :=
  ⟨returns, fun log => by
    rw [List.append_nil]
    exact .single (move log)⟩

theorem stack {stack : List Value} (h : ∀ μ ∈ Value.marksAll stack, m.Learns hand μ) :
    Reaches writable m hand [] (m.withStack stack) hand :=
  of_move ⟨rfl, rfl, rfl, rfl, rfl, rfl⟩ fun _ => .stack h

theorem push {v : Value} (h : ∀ μ ∈ v.marks, m.Learns hand μ) :
    Reaches writable m hand [] (m.push v) hand := by
  refine stack fun μ mem => ?_
  rw [Value.marksAll, List.mem_append] at mem
  exact mem.elim (h μ) fun mem => .known (.inl mem)

theorem pushAll {vs : List Value} (h : ∀ μ ∈ Value.marksAll vs, m.Learns hand μ) :
    Reaches writable m hand [] (m.pushAll vs) hand := by
  refine stack fun μ mem => ?_
  rw [Value.marksAll_append, List.mem_append] at mem
  rcases mem with mem | mem
  · obtain ⟨v, among, mem⟩ := Value.mem_marksAll.mp mem
    exact h μ (Value.marks_subset (List.mem_reverse.mp among) mem)
  · exact .known (.inl mem)

theorem made (h : Reaches writable m hand events m' left) (fit : m.Fit writable)
    (made : ∀ μ ∈ hand, m.Made μ) : ∀ μ ∈ left, m'.Made μ :=
  ((h.moves []).sound (fit.sound made)).hand

/-- A frame stays alive. -/
theorem lives {scope : FrameId} (h : Reaches writable m hand events m' left) (owned : m.IsSound)
    (lives : m.Lives scope) : m'.Lives scope := by
  have roots : m'.roots = m.roots := by
    rw [Machine.roots, Machine.roots, h.returns.ambient, h.returns.running, h.returns.held]
  obtain ⟨o, owns, mem⟩ := Store.alive_iff.mp lives
  refine Store.alive_iff.mpr ⟨o, roots ▸ owns, ?_⟩
  rw [(h.moves []).grows.chain_eq (owned o (m.roots_subset owns))]
  exact mem

/-- What could be run in a scope can still be run there. -/
theorem ready {scope : FrameId} (h : Reaches writable m hand events m' left)
    (ready : m.Ready writable scope) (made : ∀ μ ∈ hand, m.Made μ) : m'.Ready writable scope where
  toFit := (h.moves []).fit ready.toFit made
  lives := h.lives ready.owned ready.lives
  writes := ready.writes

end Reaches

/-- The events after a run, if it has a result. -/
def Run.after (r : Run σ α) (next : α → Machine σ → List Event) (m : Machine σ) : List Event :=
  match r m with
  | .ok a m' => next a m'
  | .error _ _ => []

/-- A run is a chain of moves, and leaves some marks with its result. -/
def Follows (writable : FrameId → Prop) (m : Machine σ) (hand : List Mark) (r : Run σ α)
    (events : List Event) (left : α → List Mark) : Prop :=
  match r m with
  | .ok a m' => Reaches writable m hand events m' (left a)
  | .error _ m' => Reaches writable m hand events m' []

namespace Follows

variable {hand : List Mark} {events : List Event} {left : α → List Mark} {after : β → List Mark}

theorem ok {r : Run σ α} {a : α} (ran : r m = .ok a m')
    (h : Reaches writable m hand events m' (left a)) : Follows writable m hand r events left := by
  rw [Follows, ran]
  exact h

theorem error {r : Run σ α} {stop : Stop} (ran : r m = .error stop m')
    (h : Reaches writable m hand events m' []) : Follows writable m hand r events left := by
  rw [Follows, ran]
  exact h

theorem reaches {r : Run σ α} {a : α} (h : Follows writable m hand r events left)
    (ran : r m = .ok a m') : Reaches writable m hand events m' (left a) := by
  rwa [Follows, ran] at h

/-- A run goes on as another one does from a machine that has been reached. -/
theorem resume {r r' : Run σ α} {events' : List Event} {hand' : List Mark}
    (first : Reaches writable m hand events m' hand') (same : r m = r' m')
    (rest : Follows writable m' hand' r' events' left) :
    Follows writable m hand r (events ++ events') left := by
  rw [Follows] at rest ⊢
  rw [same]
  split at rest
  · exact first.trans rest
  · exact first.trans rest

theorem learn {r : Run σ α} {hand' : List Mark} (learnt : ∀ μ ∈ hand', m.Learns hand μ)
    (h : Follows writable m hand' r events left) : Follows writable m hand r events left :=
  .resume (.learn learnt) rfl h

theorem forget {r : Run σ α} (h : Follows writable m [] r events left) :
    Follows writable m hand r events left := .resume (.forget m hand) rfl h

theorem fail (fault : Fault) : Follows writable m hand (Run.fail fault : Run σ α) [] left :=
  error rfl (.forget m hand)

theorem pure {a : α} (h : ∀ μ ∈ left a, m.Learns hand μ) :
    Follows writable m hand (Pure.pure a) [] left := ok rfl (.learn h)

theorem bind {r : Run σ α} {f : α → Run σ β} {next : α → Machine σ → List Event}
    (first : Follows writable m hand r events left)
    (then_ : ∀ a m', r m = .ok a m' → Reaches writable m hand events m' (left a) →
      Follows writable m' (left a) (f a) (next a m') after) :
    Follows writable m hand (r >>= f) (events ++ r.after next m) after := by
  cases ran : r m with
  | error stop m' =>
      refine error (Run.bind_of_error ran) ?_
      rw [Follows, ran] at first
      rw [Run.after, ran, List.append_nil]
      exact first
  | ok a m' =>
      have reached := first.reaches ran
      have rest := then_ a m' ran reached
      rw [Follows, Run.bind_of_ok ran, Run.after, ran]
      rw [Follows] at rest
      split at rest
      · exact reached.trans rest
      · exact reached.trans rest

/-- The same with events of the first run only. -/
theorem bind_last {r : Run σ α} {f : α → Run σ β} (first : Follows writable m hand r events left)
    (then_ : ∀ a m', r m = .ok a m' → Reaches writable m hand events m' (left a) →
      Follows writable m' (left a) (f a) [] after) :
    Follows writable m hand (r >>= f) events after := by
  have whole : Follows writable m hand (r >>= f) (events ++ r.after (fun _ _ => []) m) after :=
    first.bind then_
  have none : r.after (fun _ _ => ([] : List Event)) m = [] := by
    unfold Run.after
    split <;> rfl
  rwa [none, List.append_nil] at whole

/-- The same without events. -/
theorem bind_quiet {r : Run σ α} {f : α → Run σ β} (first : Follows writable m hand r [] left)
    (then_ : ∀ a m', r m = .ok a m' → Reaches writable m hand [] m' (left a) →
      Follows writable m' (left a) (f a) [] after) :
    Follows writable m hand (r >>= f) [] after := first.bind_last then_

theorem get {f : Machine σ → Run σ α} (h : Follows writable m hand (f m) events left) :
    Follows writable m hand (MonadState.get >>= f) events left := h

theorem modified {change : Machine σ → Machine σ} {left : List Mark}
    (h : Reaches writable m hand events (change m) left) :
    Follows writable m hand (modify change) events fun _ => left := h

theorem push {v : Value} (h : ∀ μ ∈ v.marks, m.Learns hand μ) {left : Unit → List Mark}
    (rest : left () ⊆ hand) : Follows writable m hand (Run.push v) [] left :=
  ok (Run.push_eq v) ((Reaches.push h).trans (.learn fun _ mem => .kept (rest mem)))

end Follows

/-! ## Names -/

theorem Machine.Knows.of_get? {scope : FrameId} (alive : m.alive scope = true) {name : String}
    {v : Value} (found : m.common.store.get? scope name = some v) : ∀ μ ∈ v.marks, m.Knows μ :=
  fun _ mem => .inr (.of_alive alive (.of_get? found mem))

/-- A name that is looked up is known or the run fails. -/
theorem lookup_cases {scope : FrameId} (alive : m.alive scope = true) (name : String) :
    (∃ v, lookup name scope m = .ok v m ∧ ∀ μ ∈ v.marks, m.Knows μ) ∨
      ∃ stop, lookup name scope m = .error stop m := by
  rw [lookup_eq]
  cases here : m.common.store.get? scope name with
  | some v => exact .inl ⟨v, rfl, .of_get? alive here⟩
  | none =>
      cases there : m.common.store.get? m.session.ambient name with
      | some v => exact .inl ⟨v, rfl, .of_get? m.alive_ambient there⟩
      | none => exact .inr ⟨_, rfl⟩

theorem member_cases {host : Host σ}
    (plain : ∀ world o name v, host.member world o name = some v → v.marks = []) (v : Value)
    (name : String) :
    (∃ w, member host v name m = .ok w m ∧ w.marks = []) ∨
      ∃ stop, member host v name m = .error stop m := by
  cases v with
  | object o =>
      rw [member_object_eq]
      cases found : host.member m.common.world o name with
      | none => exact .inr ⟨_, rfl⟩
      | some w => exact .inl ⟨w, rfl, plain _ _ _ _ found⟩
  | _ => exact .inr ⟨_, rfl⟩

theorem membersOf_cases {host : Host σ}
    (plain : ∀ world o name v, host.member world o name = some v → v.marks = []) {v : Value}
    (known : ∀ μ ∈ v.marks, m.Knows μ) (names : List String) :
    (∃ w, membersOf host v names m = .ok w m ∧ ∀ μ ∈ w.marks, m.Knows μ) ∨
      ∃ stop, membersOf host v names m = .error stop m := by
  induction names generalizing v with
  | nil => exact .inl ⟨v, rfl, known⟩
  | cons name rest ih =>
      rcases member_cases plain v name with ⟨w, found, none⟩ | ⟨stop, failed⟩
      · rw [membersOf, Run.bind_of_ok found]
        exact ih (by rw [none]; nofun)
      · exact .inr ⟨stop, Run.bind_of_error failed⟩

theorem resolve_cases {host : Host σ}
    (plain : ∀ world o name v, host.member world o name = some v → v.marks = [])
    {scope : FrameId} (alive : m.alive scope = true) (path : Path) :
    (∃ v, resolve host path scope m = .ok v m ∧ ∀ μ ∈ v.marks, m.Knows μ) ∨
      ∃ stop, resolve host path scope m = .error stop m := by
  rcases lookup_cases alive path.root with ⟨v, found, known⟩ | ⟨stop, failed⟩
  · rw [resolve, Run.bind_of_ok found]
    obtain ⟨_ | ⟨first, others⟩⟩ := path
    · exact .inr ⟨_, rfl⟩
    · exact membersOf_cases plain known others
  · exact .inr ⟨stop, Run.bind_of_error failed⟩

theorem follows_lookup {scope : FrameId} {hand : List Mark} (alive : m.alive scope = true)
    (name : String) :
    Follows writable m hand (lookup name scope) [] fun v => v.marks ++ hand := by
  rcases lookup_cases alive name with ⟨v, found, known⟩ | ⟨stop, failed⟩
  · refine .ok found (.learn fun μ mem => ?_)
    exact (List.mem_append.mp mem).elim (fun mem => .known (known μ mem)) .kept
  · exact .error failed (.forget m hand)

theorem follows_resolve {host : Host σ}
    (plain : ∀ world o name v, host.member world o name = some v → v.marks = [])
    {scope : FrameId} {hand : List Mark} (alive : m.alive scope = true) (path : Path) :
    Follows writable m hand (resolve host path scope) [] fun v => v.marks ++ hand := by
  rcases resolve_cases plain alive path with ⟨v, found, known⟩ | ⟨stop, failed⟩
  · refine .ok found (.learn fun μ mem => ?_)
    exact (List.mem_append.mp mem).elim (fun mem => .known (known μ mem)) .kept
  · exact .error failed (.forget m hand)

/-! ## Builtins -/

theorem Machine.learns_stack {hand : List Mark} {vs : List Value} (h : vs ⊆ m.session.stack) :
    ∀ μ ∈ Value.marksAll vs, m.Learns hand μ :=
  fun _ mem => .known (.inl (Value.marksAll_subset h mem))

namespace Builtin

variable {b : Builtin} {args : List Value} {hand : List Mark}

theorem follows_noArgs {left : Unit → List Mark} (none : left () = []) :
    Follows writable m hand (b.noArgs args) [] left := by
  unfold noArgs
  split
  · exact .pure (by rw [none]; nofun)
  · exact .fail _

theorem follows_single :
    Follows writable m hand (b.single args) [] fun _ => [] := by
  unfold single
  split
  · exact .pure nofun
  · exact .fail _

theorem follows_pop : Follows writable m hand (Run.pop : Run σ Value) [] Value.marks := by
  have step := Run.pop_eq (m := m)
  cases stack : m.session.stack with
  | nil =>
      rw [stack] at step
      exact .error step (.forget m hand)
  | cons v rest =>
      rw [stack] at step
      have learnt : Reaches writable m hand [] m v.marks := .learn fun μ mem =>
        .known (.inl (Value.marks_subset (stack ▸ List.mem_cons_self) mem))
      refine .ok step (learnt.trans (.stack ?_))
      exact m.learns_stack (stack ▸ List.subset_cons_self _ _)

/-- A builtin makes no marks. -/
theorem follows_run (host : Host σ) :
    Follows writable m hand (b.run host args) [] fun v => Value.marksAll v.toList := by
  have nothing : ∀ {m : Machine σ} {hand : List Mark},
      Follows writable m hand (pure none : Run σ (Option Value)) []
        fun v => Value.marksAll v.toList := .pure nofun
  have given : ∀ {m : Machine σ} {hand : List Mark} {v : Value}, v.marks = [] →
      Follows writable m hand (pure (some v) : Run σ (Option Value)) []
        fun v => Value.marksAll v.toList := fun none => .pure (by simp [Value.marksAll, none])
  have alone : ∀ b : Builtin, Follows writable m hand (b.noArgs args) [] fun _ => [] := fun _ =>
    follows_noArgs rfl
  cases b with
  | assert =>
      unfold run
      dsimp only
      split
      · exact .fail _
      · split
        · exact nothing
        · exact .fail _
  | print =>
      refine .get ((Follows.modified (.of_move ?_ fun _ => .print)).bind_quiet
        fun _ _ _ _ => nothing)
      exact ⟨rfl, rfl, rfl, rfl, rfl, rfl⟩
  | depth => exact (alone _).bind_quiet fun _ _ _ _ => .ok rfl (.forget _ _)
  | drop =>
      exact (alone _).bind_quiet fun _ _ _ _ => follows_pop.bind_quiet fun _ _ _ _ => nothing
  | dup =>
      refine (alone _).bind_quiet fun _ m' _ _ => .get ?_
      split
      · exact .fail _
      · rename_i v rest stack
        refine .pure ?_
        simp only [Option.toList]
        exact m'.learns_stack (stack ▸ by simp)
  | swap =>
      refine (alone _).bind_quiet fun _ m' _ _ => .get ?_
      split
      · rename_i top below rest stack
        have learnt : Reaches writable m' [] [] m' (Value.marksAll [below]) := .learn
          (m'.learns_stack (stack ▸ by simp))
        refine .ok rfl (learnt.trans (.stack ?_))
        exact m'.learns_stack (stack ▸ by simp)
      · exact .fail _
  | clear =>
      refine (alone _).bind_quiet fun _ m' _ _ => ?_
      exact (Follows.modified (.stack (m'.learns_stack (List.nil_subset _)))).bind_quiet
        fun _ _ _ _ => nothing
  | len =>
      refine follows_single.bind_quiet fun v _ _ _ => ?_
      split
      · exact given rfl
      · exact given rfl
      · exact .fail _
  | str => exact follows_single.bind_quiet fun _ _ _ _ => .get (given rfl)
  | type => exact follows_single.bind_quiet fun _ _ _ _ => given rfl

end Builtin

end PeerScript
