import Mathlib.Logic.Relation
import PeerScript.Proofs.Contents

/-!
# Where runs write

A run of a tree binds names in the frame it runs in and in frames that it makes, whatever functions
it calls and wherever these were made.  `Spares` says of two machines that the one has become the
other in this way.

Objects are the exception: while a script waits for an object, others may run, and these write in
frames of their own.  A `Law` says which frames these are, what may become of frames meanwhile, and
what is known of the values and of the objects; a host is `IsLocal` if its methods keep to the law.

What others do is told apart from what the script does.  `Store.Course` is the whole way from the
frames at the start to those at the end: steps in which the script writes, and in between them the
changes that others make while it waits.
-/

set_option autoImplicit false

namespace PeerScript

variable {σ α β : Type}

/-! ## Frames that are not written -/

namespace Store

variable {s t : Store} {writes writes' : FrameId → Prop}

/-- Frames stay where they are, and only those that may be written bind anything else than
before. -/
structure Spares (writes : FrameId → Prop) (s t : Store) : Prop extends s.Extends t where
  bindings : ∀ f < s.frames.size, ¬ writes f → t.bindings f = s.bindings f

namespace Spares

theorem refl (writes : FrameId → Prop) (s : Store) : s.Spares writes s :=
  ⟨.refl s, fun _ _ _ => rfl⟩

theorem trans {u : Store} (h : s.Spares writes t) (k : t.Spares writes' u)
    (fewer : ∀ f < s.frames.size, writes' f → writes f) : s.Spares writes u where
  toExtends := h.toExtends.trans k.toExtends
  bindings f lt no := by
    have unwritten : ¬ writes' f := fun writes => no (fewer f lt writes)
    exact (k.bindings f (Nat.lt_of_lt_of_le lt h.size) unwritten).trans (h.bindings f lt no)

theorem mono (h : s.Spares writes t) (fewer : ∀ f < s.frames.size, writes f → writes' f) :
    s.Spares writes' t where
  toExtends := h.toExtends
  bindings f lt no := h.bindings f lt fun may => no (fewer f lt may)

end Spares

theorem spares_set (s : Store) {f : FrameId} (may : writes f) (name : String) (v : Value) :
    s.Spares writes (s.set f name v) where
  toExtends := s.extends_set f name v
  bindings g _ no := by
    have ne : g ≠ f := fun same => no (same ▸ may)
    exact bindings_congr (frames_set_of_ne v ne)

theorem spares_alloc (writes : FrameId → Prop) (s : Store) (parent : Option FrameId) :
    s.Spares writes (s.alloc parent).1 where
  toExtends := (s.widens_alloc parent).toExtends
  bindings _ lt _ := bindings_congr (frames_alloc_of_lt parent lt)

theorem spares_setAll (s : Store) {f : FrameId} (may : writes f)
    (bindings : List (String × Value)) :
    s.Spares writes (s.setAll f bindings) := by
  induction bindings generalizing s with
  | nil => exact .refl _ s
  | cons b rest ih =>
      exact (s.spares_set may b.1 b.2).trans (ih (s.set f b.1 b.2)) fun _ _ => id

end Store

namespace Store

variable {s t : Store} {writes writes' : FrameId → Prop} {meanwhile : Store → Store → Prop}

/-- Frames are changed by a session, which writes in the given ones, and meanwhile by others. -/
abbrev Course (meanwhile : Store → Store → Prop) (writes : FrameId → Prop) : Store → Store → Prop :=
  Relation.ReflTransGen fun s t => s.Spares writes t ∨ meanwhile s t

theorem Course.mono (h : s.Course meanwhile writes t) (fewer : ∀ f, writes f → writes' f) :
    s.Course meanwhile writes' t := by
  induction h with
  | refl => exact .refl
  | tail _ step ih => exact ih.tail (step.imp_left fun spares => spares.mono fun f _ => fewer f)

/-- Without others only the given frames are written. -/
theorem Course.spares (h : s.Course (fun _ _ => False) writes t) : s.Spares writes t := by
  induction h with
  | refl => exact .refl writes s
  | tail _ step ih => exact ih.trans (step.resolve_right id) fun _ _ => id

/-- Frames stay where they are.  A session writes in the given ones and in those that it makes, and
all other changes are made meanwhile by others. -/
structure Changes (meanwhile : Store → Store → Prop) (writes : FrameId → Prop) (s t : Store) : Prop
    extends s.Extends t where
  course : s.Course meanwhile (fun f => writes f ∨ s.frames.size ≤ f) t

/-- What is new at the end was not there before. -/
theorem Changes.spares (h : s.Changes (fun _ _ => False) writes t) : s.Spares writes t :=
  h.course.spares.mono fun _ lt may => may.resolve_right (Nat.not_le_of_lt lt)

end Store

/-! ## Laws -/

/-- What is known of what a session can get at, and of what others do while it waits. -/
structure Law (σ : Type) where
  /-- what values are made of -/
  kit : Kit
  /-- the states in which the objects may be -/
  sound : σ → Prop
  /-- the frames in which others may bind names -/
  elsewhere : σ → FrameId → Prop
  /-- what others make of the frames while a session waits -/
  meanwhile : Store → Store → Prop
  /-- what may become of a state of the objects -/
  passes : σ → σ → Prop
  refl : ∀ w, sound w → passes w w
  trans : ∀ w w' w'', passes w w' → passes w' w'' → passes w w''

/-- What is shared is as the law says. -/
structure Common.Obeys (law : Law σ) (c : Common σ) : Prop where
  bound : c.store.Within law.kit
  world : law.sound c.world

/-- A machine is as the law says. -/
structure Machine.Obeys (law : Law σ) (m : Machine σ) : Prop where
  stack : ∀ v ∈ m.session.stack, v.Within law.kit
  common : m.common.Obeys law

/-- What is shared has changed as the law allows when names may be bound in the given frames: others
write in frames in which they could write before, and in new ones.  The session writes in the given
frames and in those that are new since some moment before. -/
structure Common.Spares (law : Law σ) (writes : FrameId → Prop) (c d : Common σ) : Prop where
  obeys : d.Obeys law
  store : c.store.Spares (fun f => writes f ∨ law.elsewhere c.world f) d.store
  course : ∀ size ≤ c.store.frames.size,
    c.store.Course law.meanwhile (fun f => writes f ∨ size ≤ f) d.store
  elsewhere : ∀ f, law.elsewhere d.world f → law.elsewhere c.world f ∨ c.store.frames.size ≤ f
  passes : law.passes c.world d.world

/-- A machine has changed as the law allows when names may be bound in the given frames. -/
structure Machine.Spares (law : Law σ) (writes : FrameId → Prop) (m m' : Machine σ) : Prop where
  stack : ∀ v ∈ m'.session.stack, v.Within law.kit
  common : m.common.Spares law writes m'.common
  ambient : m'.session.ambient = m.session.ambient

variable {law : Law σ} {writes writes' : FrameId → Prop}

namespace Common.Spares

variable {c d e : Common σ}

theorem of_eq (obeys : c.Obeys law) (store : d.store = c.store) (world : d.world = c.world) :
    c.Spares law writes d where
  obeys := ⟨store ▸ obeys.bound, world ▸ obeys.world⟩
  store := store ▸ .refl _ _
  course _ _ := store ▸ .refl
  elsewhere _ others := .inl (world ▸ others)
  passes := by
    rw [world]
    exact law.refl _ obeys.world

theorem trans (h : c.Spares law writes d) (k : d.Spares law writes e) : c.Spares law writes e where
  obeys := k.obeys
  store := h.store.trans k.store fun _ lt may =>
    may.imp_right fun others => (h.elsewhere _ others).resolve_right (Nat.not_le_of_lt lt)
  course size le := (h.course size le).trans (k.course size (Nat.le_trans le h.store.size))
  elsewhere f others := by
    rcases k.elsewhere f others with others | new
    · exact h.elsewhere f others
    · exact .inr (Nat.le_trans h.store.size new)
  passes := law.trans _ _ _ h.passes k.passes

theorem mono (h : c.Spares law writes d) (fewer : ∀ f < c.store.frames.size, writes f → writes' f) :
    c.Spares law writes' d :=
  { h with
    store := h.store.mono fun f lt => Or.imp_left (fewer f lt)
    course := fun size le => (h.course size le).mono fun f may => by
      rcases Nat.lt_or_ge f c.store.frames.size with lt | new
      · exact may.imp_left (fewer f lt)
      · exact .inr (Nat.le_trans le new) }

/-- Only frames have changed. -/
theorem of_store {s : Store} (obeys : c.Obeys law) (spares : c.store.Spares writes s)
    (within : s.Within law.kit) : c.Spares law writes { c with store := s } where
  obeys := ⟨within, obeys.world⟩
  store := spares.mono fun _ _ => .inl
  course _ _ := .single (.inl (spares.mono fun _ _ => .inl))
  elsewhere _ others := .inl others
  passes := law.refl _ obeys.world

end Common.Spares

namespace Machine

variable {m m' m'' : Machine σ}

theorem Spares.obeys (h : m.Spares law writes m') : m'.Obeys law := ⟨h.stack, h.common.obeys⟩

theorem Spares.trans (h : m.Spares law writes m') (k : m'.Spares law writes m'') :
    m.Spares law writes m'' where
  stack := k.stack
  common := h.common.trans k.common
  ambient := k.ambient.trans h.ambient

theorem Spares.mono (h : m.Spares law writes m')
    (fewer : ∀ f < m.common.store.frames.size, writes f → writes' f) : m.Spares law writes' m' :=
  { h with common := h.common.mono fewer }

namespace Obeys

variable (h : m.Obeys law)

include h

/-- Where the frames and the objects are as before, nothing has been written. -/
theorem spares {session : Session} {common : Common σ}
    (stack : ∀ v ∈ session.stack, v.Within law.kit) (ambient : session.ambient = m.session.ambient)
    (store : common.store = m.common.store) (world : common.world = m.common.world) :
    m.Spares law writes ⟨session, common⟩ where
  stack := stack
  common := .of_eq h.common store world
  ambient := ambient

theorem refl : m.Spares law writes m := h.spares h.stack rfl rfl rfl

theorem withStack {vs : List Value} (within : ∀ v ∈ vs, v.Within law.kit) :
    m.Spares law writes (m.withStack vs) := h.spares within rfl rfl rfl

theorem push {v : Value} (within : v.Within law.kit) : m.Spares law writes (m.push v) :=
  h.withStack (List.forall_mem_cons.mpr ⟨within, h.stack⟩)

theorem pushAll {vs : List Value} (within : ∀ v ∈ vs, v.Within law.kit) :
    m.Spares law writes (m.pushAll vs) := by
  refine h.withStack fun v mem => ?_
  rcases List.mem_append.mp mem with mem | mem
  · exact within v (List.mem_reverse.mp mem)
  · exact h.stack v mem

theorem capture (f : FrameId) : m.Spares law writes (m.capture f) := by
  rcases m.capture_cases f with ⟨-, same⟩ | ⟨_, _, -, same⟩
  · rw [same]
    exact h.refl
  · rw [same]
    exact h.spares h.stack rfl rfl rfl

theorem bind {f : FrameId} (may : writes f) (name : String) {v : Value}
    (within : v.Within law.kit) :
    m.Spares law writes (m.bind f name v) where
  stack := h.stack
  common :=
    .of_store h.common (m.common.store.spares_set may name v) (h.common.bound.set f name within)
  ambient := rfl

/-- A new frame is none that was there. -/
theorem framed (parent : FrameId) {bindings : List (String × Value)}
    (within : ∀ b ∈ bindings, b.2.Within law.kit) :
    m.Spares law (fun f => f = m.common.store.frames.size) (m.framed parent bindings) where
  stack := h.stack
  common := by
    refine .of_store h.common ?_ ((h.common.bound.alloc (some parent)).setAll _ within)
    exact (m.common.store.spares_alloc _ _).trans (Store.spares_setAll _ rfl bindings)
      fun _ _ same => same.symm
  ambient := rfl

end Obeys

end Machine

/-! ## Runs -/

/-- The run changes the machine as the law allows, whichever way it ends, and what it returns is
right. -/
def Run.Spares (law : Law σ) (writes : FrameId → Prop) (right : α → Prop) (r : Run σ α)
    (m : Machine σ) :
    Prop :=
  match r m with
  | .ok a m' => m.Spares law writes m' ∧ right a
  | .error _ m' => m.Spares law writes m'

namespace Run.Spares

variable {right : α → Prop} {right' : β → Prop} {r : Run σ α} {f : α → Run σ β} {m m' : Machine σ}

theorem ok {a : α} (ran : r m = .ok a m') (spares : m.Spares law writes m') (gives : right a) :
    Run.Spares law writes right r m := by
  rw [Run.Spares, ran]
  exact ⟨spares, gives⟩

theorem error {stop : Stop} (ran : r m = .error stop m') (spares : m.Spares law writes m') :
    Run.Spares law writes right r m := by
  rw [Run.Spares, ran]
  exact spares

/-- What the machine has become. -/
theorem after (h : Run.Spares law writes right r m) :
    (∃ a m', r m = .ok a m' ∧ m.Spares law writes m' ∧ right a) ∨
      ∃ stop m', r m = .error stop m' ∧ m.Spares law writes m' := by
  rw [Run.Spares] at h
  cases ran : r m with
  | ok a m' =>
      rw [ran] at h
      exact .inl ⟨a, m', rfl, h⟩
  | error stop m' =>
      rw [ran] at h
      exact .inr ⟨stop, m', rfl, h⟩

/-- The rest of a run goes on from what the first part has made of the machine. -/
theorem andThen (h : Run.Spares law writes right r m)
    (next : ∀ a m', m.Spares law writes m' → right a → Run.Spares law writes right' (f a) m') :
    Run.Spares law writes right' (r >>= f) m := by
  rcases h.after with ⟨a, m₁, ran, first, gives⟩ | ⟨stop, m₁, ran, first⟩
  · rcases (next a m₁ first gives).after with ⟨b, m₂, ran', rest, gives'⟩ | ⟨stop, m₂, ran', rest⟩
    · exact .ok ((bind_of_ok ran).trans ran') (first.trans rest) gives'
    · exact .error ((bind_of_ok ran).trans ran') (first.trans rest)
  · exact .error (bind_of_error ran) first

theorem bind (h : Run.Spares law writes right r m)
    (next : ∀ a m', m'.Obeys law → right a → Run.Spares law writes right' (f a) m') :
    Run.Spares law writes right' (r >>= f) m :=
  h.andThen fun a m' spares gives => next a m' spares.obeys gives

/-- The machine changes before the rest runs. -/
theorem resume {r' : Run σ α} (spares : m.Spares law writes m') (step : r m = r' m')
    (h : Run.Spares law writes right r' m') : Run.Spares law writes right r m := by
  rcases h.after with ⟨a, m₂, ran, rest, gives⟩ | ⟨stop, m₂, ran, rest⟩
  · exact .ok (step.trans ran) (spares.trans rest) gives
  · exact .error (step.trans ran) (spares.trans rest)

theorem mono (h : Run.Spares law writes right r m)
    (fewer : ∀ f < m.common.store.frames.size, writes f → writes' f) :
    Run.Spares law writes' right r m := by
  rcases h.after with ⟨a, m', ran, spares, gives⟩ | ⟨stop, m', ran, spares⟩
  · exact .ok ran (spares.mono fewer) gives
  · exact .error ran (spares.mono fewer)

variable (obeys : m.Obeys law)

include obeys

theorem pure {a : α} (gives : right a) : Run.Spares law writes right (Pure.pure a) m :=
  .ok rfl obeys.refl gives

theorem throw (stop : Stop) : Run.Spares law writes right (throw stop) m := .error rfl obeys.refl

theorem ofExcept {result : Except Fault α} (gives : ∀ a, result = .ok a → right a) :
    Run.Spares law writes right (ofExcept result) m := by
  cases result with
  | ok a => exact pure obeys (gives a rfl)
  | error fault => exact throw obeys _

theorem get : Run.Spares law writes (·.Obeys law) get m := .ok rfl obeys.refl obeys

theorem push {v : Value} (within : v.Within law.kit) :
    Run.Spares law writes (fun _ => True) (push v) m := .ok rfl (obeys.push within) trivial

theorem withStack {vs : List Value} (within : ∀ v ∈ vs, v.Within law.kit) :
    Run.Spares law writes (fun _ => True) (modify (·.withStack vs)) m :=
  .ok rfl (obeys.withStack within) trivial

theorem pushAll {vs : List Value} (within : ∀ v ∈ vs, v.Within law.kit) :
    Run.Spares law writes (fun _ => True) (modify (·.pushAll vs)) m :=
  .ok rfl (obeys.pushAll within) trivial

theorem pop : Run.Spares law writes (·.Within law.kit) pop m := by
  refine bind (get obeys) fun n m' obeys' known => ?_
  split
  · exact throw obeys' _
  · rename_i v rest stack
    have within := known.stack
    rw [stack, List.forall_mem_cons] at within
    exact bind (withStack obeys' within.2) fun _ _ obeys₂ _ => pure obeys₂ within.1

theorem splitOff (base : Nat) :
    Run.Spares law writes (fun vs => ∀ v ∈ vs, v.Within law.kit) (splitOff base) m := by
  have split := splitOff_eq base (m := m)
  split at split
  · exact .error split obeys.refl
  · refine .ok split (obeys.withStack fun v mem => obeys.stack v (List.mem_of_mem_drop mem)) ?_
    exact fun v mem => obeys.stack v (List.mem_of_mem_take (List.mem_reverse.mp mem))

/-- Inside of an invocation it makes no difference which frames are kept and what is counted. -/
theorem counted (h : ∀ m : Machine σ, m.Obeys law → Run.Spares law writes right r m) :
    Run.Spares law writes right (counted r) m := by
  have inside := h m.enter ⟨obeys.stack, obeys.common⟩
  have step := counted_eq r m
  rcases inside.after with ⟨a, m', ran, spares, gives⟩ | ⟨stop, m', ran, spares⟩
  · rw [ran] at step
    exact .ok step ⟨spares.stack, spares.common, spares.ambient⟩ gives
  · rw [ran] at step
    exact .error step ⟨spares.stack, spares.common, spares.ambient⟩

theorem holding {frame : FrameId}
    (h : ∀ m : Machine σ, m.Obeys law → Run.Spares law writes right r m) :
    Run.Spares law writes right (holding frame r) m := by
  have inside := h (m.hold frame) ⟨obeys.stack, obeys.common⟩
  have step := holding_eq frame r m
  rcases inside.after with ⟨a, m', ran, spares, gives⟩ | ⟨stop, m', ran, spares⟩
  · rw [ran] at step
    exact .ok step ⟨spares.stack, spares.common, spares.ambient⟩ gives
  · rw [ran] at step
    exact .error step ⟨spares.stack, spares.common, spares.ambient⟩

end Run.Spares

open Run

/-! ## Objects -/

/-- A method that does not go back into the machine, and changes what is shared as the law allows
when nothing may be written. -/
def Method.IsLocal (law : Law σ) : Method σ → Machine σ → Prop
  | .finish (.ok (some v)), _ => v.Within law.kit
  | .finish (.ok none), _ | .finish (.error _), _ | .stuck, _ => True
  | .push v next, m => v.Within law.kit ∧ next.IsLocal law (m.push v)
  | .call .., _ | .run .., _ | .runIn .., _ => False
  | .look next, m => (next m.session m.whole).IsLocal law m
  | .change act next, m =>
      m.common.Spares law (fun _ => False) (act m.whole) ∧
        next.IsLocal law (m.changed (act m.whole))

/-- Members and methods of the objects in the kit keep to the law. -/
structure Host.IsLocal (law : Law σ) (host : Host σ) : Prop where
  member : ∀ world o name v, law.kit.object o → host.member world o name = some v → v.Within law.kit
  method : ∀ o receiver name args (m : Machine σ), law.kit.object o →
    law.kit.call ⟨receiver ++ [name]⟩ → m.Obeys law → (host.method o name args).IsLocal law m

section Parts

variable {m : Machine σ}

theorem spares_method (level : Inside σ) (act : Method σ) {m : Machine σ} (obeys : m.Obeys law)
    (local_ : act.IsLocal law m) :
    Run.Spares law (fun _ => False) (fun v : Option Value => ∀ w ∈ v, w.Within law.kit)
      (runMethod level act) m := by
  induction act generalizing m with
  | finish result =>
      rcases result with fault | _ | v
      · exact .throw obeys _
      · exact .pure obeys nofun
      · refine .pure obeys fun w mem => ?_
        obtain rfl := Option.mem_some.mp mem
        exact local_
  | push v next ih =>
      have pushed : m.Spares law (fun _ => False) (m.push v) := obeys.push local_.1
      exact .resume pushed (bind_of_ok (push_eq v)) (ih pushed.obeys local_.2)
  | call | run | runIn => exact local_.elim
  | look next ih => exact ih _ _ obeys local_
  | change act next ih =>
      have changed : m.Spares law (fun _ => False) (m.changed (act m.whole)) := {
        stack := obeys.stack
        common := local_.1.trans (.of_eq local_.1.obeys rfl rfl)
        ambient := rfl }
      exact .resume changed rfl (ih changed.obeys local_.2)
  | stuck => exact .throw obeys _

variable {host : Host σ} (keeps : host.IsLocal law)

theorem spares_lookup (obeys : m.Obeys law) (name : String) (scope : FrameId) :
    Run.Spares law writes (·.Within law.kit) (lookup name scope) m := by
  refine .bind (.get obeys) fun n m' obeys' known => ?_
  split
  · rename_i v found
    exact .pure obeys' (known.common.bound.get? found)
  · split
    · rename_i v found
      exact .pure obeys' (known.common.bound.get? found)
    · exact .throw obeys' _

include keeps

theorem spares_member (obeys : m.Obeys law) {v : Value} (within : v.Within law.kit)
    (name : String) :
    Run.Spares law writes (·.Within law.kit) (member host v name) m := by
  refine .bind (.get obeys) fun n m' obeys' known => ?_
  dsimp only
  split
  · rename_i w found
    refine .pure obeys' ?_
    split at found
    · rename_i o
      rw [Value.Within] at within
      exact keeps.member _ o name w within found
    · exact nomatch found
  · exact .throw obeys' _

theorem spares_membersOf {v : Value} (within : v.Within law.kit) (names : List String)
    {m : Machine σ} (obeys : m.Obeys law) :
    Run.Spares law writes (·.Within law.kit) (membersOf host v names) m := by
  induction names generalizing v m with
  | nil => exact .pure obeys within
  | cons name rest ih =>
      exact .bind (spares_member keeps obeys within name) fun w m' obeys' within' =>
        ih within' obeys'

theorem spares_resolve (obeys : m.Obeys law) (path : Path) (scope : FrameId) :
    Run.Spares law writes (·.Within law.kit) (resolve host path scope) m := by
  refine .bind (spares_lookup obeys _ _) fun v m' obeys' within => ?_
  split
  · exact .throw obeys' _
  · exact spares_membersOf keeps within _ obeys'

end Parts

/-! ## Builtins -/

/-- A builtin moves values on the stack. -/
theorem spares_builtin (host : Host σ) (b : Builtin) (args : List Value) {m : Machine σ}
    (obeys : m.Obeys law) :
    Run.Spares law writes (fun v : Option Value => ∀ w ∈ v, w.Within law.kit)
      (b.run host args) m := by
  have noArgs : ∀ b : Builtin, Run.Spares law writes (fun _ => True)
      (b.noArgs args : Run σ Unit) m := by
    intro b
    unfold Builtin.noArgs
    split
    · exact .pure obeys trivial
    · exact .throw obeys _
  have single : ∀ b : Builtin, Run.Spares law writes (fun _ => True)
      (b.single args : Run σ Value) m := by
    intro b
    unfold Builtin.single
    split
    · exact .pure obeys trivial
    · exact .throw obeys _
  have nothing : ∀ {m : Machine σ}, m.Obeys law → Run.Spares law writes
      (fun v : Option Value => ∀ w ∈ v, w.Within law.kit) (pure none) m :=
    fun obeys => .pure obeys (by simp)
  have gives : ∀ {m : Machine σ} {v : Value}, m.Obeys law → v.Within law.kit → Run.Spares law writes
      (fun v : Option Value => ∀ w ∈ v, w.Within law.kit) (pure (some v)) m := by
    intro m v obeys within
    refine .pure obeys fun w mem => ?_
    obtain rfl := Option.mem_some.mp mem
    exact within
  have count : ∀ n, (Builtin.count n).Within law.kit := fun n => (Value.IsData.int _).within _
  have text : ∀ s, (Value.str s).Within law.kit := fun s => (Value.IsData.str s).within _
  cases b with
  | assert =>
      unfold Builtin.run
      dsimp only
      split
      · exact .throw obeys _
      · split
        · exact nothing obeys
        · exact .throw obeys _
  | print =>
      refine .bind (.get obeys) fun _ m' obeys' _ => ?_
      have printed : ∀ lines : Machine σ → List String, Run.Spares law writes (fun _ => True)
          (modify fun m => { m with common := { m.common with printed := lines m } }) m' := fun _ =>
        .ok rfl (obeys'.spares obeys'.stack rfl rfl rfl) trivial
      exact (printed _).bind fun _ _ obeys₂ _ => nothing obeys₂
  | depth =>
      refine .bind (noArgs _) fun _ m' obeys' _ => ?_
      exact .ok rfl obeys'.refl fun w mem => Option.mem_some.mp mem ▸ count _
  | drop =>
      refine .bind (noArgs _) fun _ m' obeys' _ => ?_
      exact .bind (.pop obeys') fun _ _ obeys₂ _ => nothing obeys₂
  | dup =>
      refine .bind (noArgs _) fun _ m' obeys' _ => .bind (.get obeys') fun n m₂ obeys₂ known => ?_
      split
      · exact .throw obeys₂ _
      · rename_i v rest stack
        exact gives obeys₂ (known.stack v (stack ▸ List.mem_cons_self))
  | swap =>
      refine .bind (noArgs _) fun _ m' obeys' _ => .bind (.get obeys') fun n m₂ obeys₂ known => ?_
      split
      · rename_i top below rest stack
        have within := known.stack
        rw [stack, List.forall_mem_cons, List.forall_mem_cons] at within
        refine .bind (.withStack obeys₂ (List.forall_mem_cons.mpr ⟨within.1, within.2.2⟩)) ?_
        exact fun _ _ obeys₃ _ => gives obeys₃ within.2.1
      · exact .throw obeys₂ _
  | clear =>
      refine .bind (noArgs _) fun _ m' obeys' _ => ?_
      exact .bind (.withStack obeys' (List.forall_mem_nil _)) fun _ _ obeys₂ _ => nothing obeys₂
  | len =>
      refine .bind (single _) fun v m' obeys' _ => ?_
      split
      · exact gives obeys' (count _)
      · exact gives obeys' (count _)
      · exact .throw obeys' _
  | str =>
      refine .bind (single _) fun v m' obeys' _ => .bind (.get obeys') fun _ _ obeys₂ _ => ?_
      exact gives obeys₂ (text _)
  | type => exact .bind (single _) fun v m' obeys' _ => gives obeys' (text _)

/-! ## Calls -/

/-- Runs of trees write in their scope, and calls of functions only in frames of their own. -/
structure Localized (law : Law σ) (host : Host σ) (levels : Nat) : Prop where
  tree : ∀ (t : Tree) (scope : FrameId) (m : Machine σ), t.Within law.kit → m.Obeys law →
    Run.Spares law (· = scope) (fun _ => True) (evalTree host (inside host levels) t scope) m

section Levels

variable {host : Host σ} {levels : Nat} {m : Machine σ}

theorem spares_invocation {right : α → Prop} {act : Inside σ → Run σ α} (obeys : m.Obeys law)
    (h : ∀ fewer, levels = fewer + 1 → ∀ m : Machine σ, m.Obeys law →
      Run.Spares law writes right (act (level host fewer)) m) :
    Run.Spares law writes right (invocation (inside host levels) act) m := by
  refine .bind (.get obeys) fun n m' obeys' _ => ?_
  split
  · exact .throw obeys' _
  · cases levels with
    | zero => exact .throw obeys' _
    | succ fewer => exact .counted obeys' (h fewer rfl)

section

variable (below : ∀ fewer, levels = fewer + 1 → Localized law host fewer)

include below

/-- The frame that the body of a function writes in is made for it. -/
theorem spares_body {parent : FrameId} {bindings : List (String × Value)} {body : Tree}
    (obeys : m.Obeys law) (within : body.Within law.kit)
    (bound : ∀ b ∈ bindings, b.2.Within law.kit) :
    Run.Spares law writes (fun _ => True)
      (newFrame parent bindings >>= fun frame =>
        invocation (inside host levels) fun level => holding frame (level.run body frame)) m := by
  have framed := obeys.framed parent bound
  refine Run.Spares.mono (.resume framed (bind_of_ok rfl) ?_) fun f lt same => absurd lt
    (same ▸ Nat.lt_irrefl _)
  refine spares_invocation framed.obeys fun fewer enough m' obeys' =>
    .holding obeys' fun m₂ obeys₂ => ?_
  exact (below fewer enough).tree body _ m₂ within obeys₂

theorem spares_call {callee : Value} (within : callee.Within law.kit) (name : String)
    {args : List Value} (given : ∀ v ∈ args, v.Within law.kit) (scope : FrameId)
    (obeys : m.Obeys law) :
    Run.Spares law writes (fun _ => True)
      (callValue host (inside host levels) callee name args scope) m := by
  cases callee with
  | closure params body home =>
      rw [Value.Within] at within
      have bound : ∀ b ∈ params.zip args, b.2.Within law.kit := fun b mem =>
        given _ (List.of_mem_zip mem).2
      have step :=
        callValue_closure host (inside host levels) params body home name args scope (m := m)
      split at step
      · split at step
        · have pushed : m.Spares law writes (m.pushAll args) := obeys.pushAll given
          exact .resume pushed step (spares_body below pushed.obeys within bound)
        · exact .resume obeys.refl step (spares_body below obeys within bound)
      · exact .error step obeys.refl
  | native b =>
      refine .bind (spares_builtin host b args obeys) fun v m' obeys' within => ?_
      cases v with
      | none => exact .pure obeys' trivial
      | some v => exact .push obeys' (within v rfl)
  | _ => exact .throw obeys _

variable (keeps : host.IsLocal law)

include keeps

theorem spares_path {path : Path} (calls : law.kit.call path) {args : List Value}
    (given : ∀ v ∈ args, v.Within law.kit) (scope : FrameId) (obeys : m.Obeys law) :
    Run.Spares law writes (fun _ => True)
      (callPath host (inside host levels) path args scope) m := by
  obtain ⟨segments⟩ := path
  rcases segments.eq_nil_or_concat with rfl | ⟨receiver, last, rfl⟩
  · exact .throw obeys _
  rw [callPath]
  rw [List.concat_eq_append] at calls
  simp only [List.concat_eq_append, List.getLast?_append, List.getLast?_singleton, Option.some_or,
    List.dropLast_concat]
  cases receiver with
  | nil =>
      refine .bind (spares_lookup obeys _ _) fun callee m' obeys' within => ?_
      exact spares_call below within _ given scope obeys'
  | cons first others =>
      refine .bind (spares_resolve keeps obeys _ _) fun v m' obeys' within => ?_
      cases v with
      | object o =>
          rw [Value.Within] at within
          have called : Run.Spares law writes (fun v : Option Value => ∀ w ∈ v, w.Within law.kit)
              (invocation (inside host levels) fun level =>
                runMethod level (host.method o last args)) m' :=
            spares_invocation obeys' fun fewer _ m₂ obeys₂ =>
              (spares_method _ _ obeys₂ (keeps.method o (first :: others) last args m₂ within calls
                obeys₂)).mono (fun _ _ no => no.elim)
          refine called.bind fun v m₂ obeys₂ gives => ?_
          cases v with
          | none => exact .pure obeys₂ trivial
          | some v => exact .push obeys₂ (gives v rfl)
      | _ => exact .throw obeys' _

theorem spares_dispatch {head : Head} (calls : head.Within law.kit) {values : List Value}
    (given : ∀ v ∈ values, v.Within law.kit) (scope : FrameId) (obeys : m.Obeys law) :
    Run.Spares law (· = scope) (fun _ => True)
      (dispatch host (inside host levels) head values scope) m := by
  cases head with
  | sequence => exact .pushAll obeys given
  | bind name =>
      rw [dispatch]
      cases last : values.getLast? with
      | none => exact .throw obeys _
      | some v =>
          have kept : ∀ v ∈ values.dropLast, v.Within law.kit := fun v mem =>
            given v (List.dropLast_subset _ mem)
          refine .bind (.pushAll obeys kept) fun _ m' obeys' _ => ?_
          have bound : m'.Spares law (· = scope) (m'.bind scope name v) := by
            apply obeys'.bind
            · rfl
            · exact given v (List.mem_of_getLast? last)
          exact .ok rfl bound trivial
  | op operator =>
      refine .bind (.ofExcept obeys fun v computed => ?_) fun v m' obeys' within =>
        .push obeys' within
      exact (Operator.data_apply computed).within _
  | list => exact .push obeys ((Value.IsData.list _).within _)
  | construct typeName =>
      have step : dispatch host (inside host levels) (.construct typeName) values scope m =
          (Run.ofExcept (m.session.registry.decode typeName values m.common.serial) >>= fun v => do
            set (m.numbered (m.common.serial + 1))
            Run.push v : Run σ Unit) m := rfl
      cases decoded : m.session.registry.decode typeName values m.common.serial with
      | error fault =>
          rw [decoded] at step
          exact .error step obeys.refl
      | ok v =>
          rw [decoded] at step
          obtain ⟨kind, fields, rfl⟩ := Registry.handle_of_decode decoded
          have numbered : m.Spares law (· = scope) (m.numbered (m.common.serial + 1)) :=
            obeys.spares obeys.stack rfl rfl rfl
          have within : (Value.handle kind m.common.serial fields).Within law.kit := by
            simp only [Value.Within]
          exact .ok step (numbered.trans (numbered.obeys.push within)) trivial
  | invoke path => exact spares_path below keeps calls given scope obeys

end

mutual

theorem spares_tree (keeps : host.IsLocal law)
    (below : ∀ fewer, levels = fewer + 1 → Localized law host fewer) :
    ∀ (t : Tree) (scope : FrameId) {m : Machine σ}, t.Within law.kit → m.Obeys law →
      Run.Spares law (· = scope) (fun _ => True) (evalTree host (inside host levels) t scope) m
  | .literal v, scope, m, within, obeys => by
      rw [Tree.Within] at within
      by_cases made : ∃ params body home, v = .closure params body home
      · obtain ⟨params, body, home, rfl⟩ := made
        have captured : m.Spares law (· = scope) (m.capture scope) := obeys.capture scope
        rw [Value.Within] at within
        have pushed : (m.capture scope).Spares law (· = scope)
            ((m.capture scope).push (.closure params body (some scope))) :=
          captured.obeys.push (by rwa [Value.Within])
        rw [evalTree]
        exact .ok rfl (captured.trans pushed) trivial
      · rw [evalTree_plain _ _ fun ps b f same => made ⟨ps, b, f, same⟩]
        exact .push obeys within
  | .reference path, scope, m, _, obeys => by
      rw [evalTree]
      exact .bind (spares_resolve keeps obeys path scope) fun v m' obeys' within =>
        .push obeys' within
  | .call head args, scope, m, within, obeys => by
      rw [Tree.Within] at within
      by_cases sequence : head = .sequence
      · subst sequence
        rw [evalTree]
        exact spares_trees keeps below args scope within.2 obeys
      · rw [evalTree_applied host _ sequence]
        refine .resume obeys.refl (bind_of_ok height_eq) ?_
        refine .bind (spares_trees keeps below args scope within.2 obeys) fun _ m₁ obeys₁ _ => ?_
        refine .bind (.splitOff obeys₁ _) fun values m₂ obeys₂ given => ?_
        exact spares_dispatch below keeps within.1 given scope obeys₂

theorem spares_trees (keeps : host.IsLocal law)
    (below : ∀ fewer, levels = fewer + 1 → Localized law host fewer) :
    ∀ (ts : List Tree) (scope : FrameId) {m : Machine σ}, Tree.AllWithin law.kit ts → m.Obeys law →
      Run.Spares law (· = scope) (fun _ => True) (evalTrees host (inside host levels) ts scope) m
  | [], _, _, _, obeys => by
      rw [evalTrees]
      exact .pure obeys trivial
  | t :: rest, scope, m, within, obeys => by
      rw [evalTrees]
      rw [Tree.AllWithin] at within
      refine .bind (spares_tree keeps below t scope within.1 obeys) fun _ m' obeys' _ => ?_
      exact spares_trees keeps below rest scope within.2 obeys'

end

end Levels

theorem localized {host : Host σ} (keeps : host.IsLocal law) (levels : Nat) :
    Localized law host levels := by
  induction levels with
  | zero =>
      have below : ∀ fewer, 0 = fewer + 1 → Localized law host fewer := fun _ same => nomatch same
      exact ⟨fun t scope _ => spares_tree keeps below t scope⟩
  | succ levels ih =>
      have below : ∀ fewer, levels + 1 = fewer + 1 → Localized law host fewer := by
        rintro _ ⟨⟩
        exact ih
      exact ⟨fun t scope _ => spares_tree keeps below t scope⟩

/-! ## Whole runs -/

/-- The machine that a run leaves, whichever way it ends. -/
def Run.left (r : Run σ α) (m : Machine σ) : Machine σ :=
  match r m with
  | .ok _ m' | .error _ m' => m'

theorem Run.Spares.left {right : α → Prop} {r : Run σ α} {m : Machine σ}
    (h : Run.Spares law writes right r m) : m.Spares law writes (r.left m) := by
  rcases h.after with ⟨a, m', ran, spares, -⟩ | ⟨stop, m', ran, spares⟩ <;> rw [Run.left, ran] <;>
    exact spares

/-- What a machine can get at is in the kit. -/
structure Machine.Within (kit : Kit) (m : Machine σ) : Prop where
  stack : ∀ v ∈ m.session.stack, v.Within kit
  bound : m.common.store.Within kit

/-- A machine that runs trees made of the kit binds names only where each of them runs, and in new
frames; a function that is called, whatever its home and wherever it is called, binds names only in
new frames.  What this comes to when others write meanwhile, `changes` tells. -/
structure Machine.WritesLocally (host : Host σ) (kit : Kit)
    (changes : (FrameId → Prop) → Store → Store → Prop) (m : Machine σ) : Prop where
  tree : ∀ (t : Tree) (scope : FrameId), t.Within kit →
    changes (· = scope) m.common.store ((evalIn host t scope).left m).common.store
  call : ∀ (levels : Nat) (params : List String) (body : Tree) (home : Option FrameId)
    (name : String)
    (args : List Value) (scope : FrameId), body.Within kit → (∀ v ∈ args, v.Within kit) →
    changes (fun _ => False) m.common.store
      ((callValue host (inside host levels) (.closure params body home) name args scope).left
        m).common.store

/-- What is known of a change that the law allows is known of every run. -/
theorem Host.IsLocal.writesLocally {host : Host σ} (keeps : host.IsLocal law) {m : Machine σ}
    (obeys : m.Obeys law) {changes : (FrameId → Prop) → Store → Store → Prop}
    (reads : ∀ {writes : FrameId → Prop} {d : Common σ}, m.common.Spares law writes d →
      changes writes m.common.store d.store) : m.WritesLocally host law.kit changes where
  tree t scope within := by
    have ran := (localized keeps m.levels).tree t scope m within obeys
    exact reads ran.left.common
  call levels params body home name args scope within given := by
    have called : Run.Spares law (fun _ => False) (fun _ => True)
        (callValue host (inside host levels) (.closure params body home) name args scope) m :=
      spares_call (fun fewer _ => localized keeps fewer) (by rwa [Value.Within]) name
        given scope obeys
    exact reads called.left.common

theorem Common.Spares.changes {c d : Common σ} (h : c.Spares law writes d) :
    c.store.Changes law.meanwhile writes d.store :=
  ⟨h.store.toExtends, h.course _ (Nat.le_refl _)⟩

/-! ## Machines without objects -/

/-- Everything but objects. -/
def Kit.objectless : Kit := ⟨fun _ => True, fun _ => False, fun _ => True, fun _ => True⟩

/-- Nobody else writes. -/
def Law.alone (σ : Type) (kit : Kit) : Law σ where
  kit := kit
  sound _ := True
  elsewhere _ _ := False
  meanwhile _ _ := False
  passes _ _ := True
  refl _ _ := trivial
  trans _ _ _ _ _ := trivial

theorem Host.isLocal_objectless (host : Host σ) : host.IsLocal (.alone σ .objectless) :=
  ⟨fun _ _ _ _ => False.elim, fun _ _ _ _ _ => False.elim⟩

/-- Alone, a machine writes what it writes itself. -/
theorem Host.IsLocal.writesLocally_alone {host : Host σ} {kit : Kit}
    (keeps : host.IsLocal (.alone σ kit)) {m : Machine σ} (h : m.Within kit) :
    m.WritesLocally host kit Store.Spares :=
  keeps.writesLocally ⟨h.stack, h.bound, trivial⟩ fun spares => spares.changes.spares

/-- A machine without objects writes locally, whatever objects there may be in other machines. -/
theorem Machine.Within.writesLocally (host : Host σ) {m : Machine σ} (h : m.Within .objectless) :
    m.WritesLocally host .objectless Store.Spares :=
  host.isLocal_objectless.writesLocally_alone h

end PeerScript
