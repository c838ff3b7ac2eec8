import PeerScript.Proofs.Moves.Tasks

/-!
# Functions stay at home

A function holds the frame in which it was made only weakly, and the captured frames of a session
are looked through for unused ones again and again.  Still, a function never loses its home while
the session lives: as long as a frame in which the session has made a function is referred to at
all, by a handle or by a function wherever it is, it is among the captured frames (`Kept`).  Every
move keeps that, the sweep included, which forgets a frame only if nothing refers to it.
-/

set_option autoImplicit false

namespace PeerScript

variable {σ : Type} {writable : FrameId → Prop}

/-! ## Sweeps -/

namespace Machine

variable {m : Machine σ} {f g : FrameId}

theorem subset_used (m : Machine σ) (kept fs : List FrameId) : kept ⊆ m.used kept fs := by
  induction fs generalizing kept with
  | nil => exact List.Subset.refl _
  | cons f fs ih =>
      rw [used]
      refine List.Subset.trans ?_ (ih _)
      split
      · exact List.subset_append_left _ _
      · exact List.Subset.refl _

/-- A frame that is not kept was not needed besides those that are. -/
theorem used_drops {kept fs : List FrameId} (mem : f ∈ fs) (gone : f ∉ m.used kept fs) :
    ∃ others, m.used kept fs ⊆ others ∧ m.isNeeded others f = false := by
  induction fs generalizing kept with
  | nil => exact nomatch mem
  | cons g fs ih =>
      rw [used] at gone ⊢
      by_cases later : f ∈ fs
      · exact ih later gone
      · obtain rfl : f = g := (List.mem_cons.mp mem).resolve_right later
        by_cases needed : m.isNeeded (kept ++ fs) f = true
        · rw [if_pos needed] at gone
          exact absurd (m.subset_used _ _ (List.mem_append_right _ List.mem_cons_self)) gone
        · rw [if_neg needed]
          exact ⟨_, m.used_subset _ _, Bool.eq_false_iff.mpr needed⟩

/-- What is known of a frame that is not needed besides some captured frames. -/
theorem unneeded {others captured : List FrameId} (sub : captured ⊆ others)
    (needless : m.isNeeded others f = false) :
    m.common.store.alive (captured ++ m.roots) f = false ∧ f ∉ m.common.watched ∧
      f ∉ m.session.homes ∧ ¬ m.common.store.Knows (captured ++ m.roots) (.home f) := by
  have fewer : captured ++ m.roots ⊆ others ++ m.roots := List.append_subset.mpr
    ⟨List.subset_append_of_subset_left _ sub, List.subset_append_right _ _⟩
  have spelled : others ++ m.session.ambient :: m.session.running ++ m.common.held =
      others ++ m.roots := by
    rw [roots, List.append_assoc]
  rw [isNeeded, spelled, Bool.or_eq_false_iff] at needless
  obtain ⟨dead, unseen⟩ := needless
  have unseen : f ∉ m.common.watched ++ m.session.homes ++ m.common.store.homes
      (f :: (others ++ m.roots)) := fun mem =>
    absurd (List.contains_iff_mem.mpr mem) (Bool.eq_false_iff.mp unseen)
  simp only [List.mem_append, not_or] at unseen
  refine ⟨Bool.eq_false_iff.mpr fun alive => ?_, unseen.1.1, unseen.1.2, fun known => unseen.2 ?_⟩
  · obtain ⟨o, owns, mem⟩ := Store.alive_iff.mp alive
    exact absurd (Store.alive_iff.mpr ⟨o, fewer owns, mem⟩) (Bool.eq_false_iff.mp dead)
  · obtain ⟨o, owns, g, mem, marked⟩ := known
    exact Store.mem_homes.mpr (.inl ⟨o, List.mem_cons_of_mem _ (fewer owns), g, mem, marked⟩)

/-- Nothing refers to a frame that a capture forgets. -/
theorem forgotten (mem : f ∈ m.session.captured ++ [g])
    (gone : f ∉ (m.capture g).session.captured) :
    (m.capture g).alive f = false ∧ ¬ (m.capture g).Knows (.home f) ∧ f ∉ m.common.watched := by
  unfold capture at gone ⊢
  split at gone
  · rename_i known
    rw [List.mem_append, List.mem_singleton] at mem
    exact absurd (mem.elim id fun same => same ▸ known) gone
  · rename_i new
    rw [if_neg new]
    dsimp only at gone ⊢
    split at gone
    · rename_i full
      rw [if_pos full]
      let grown : Machine σ :=
        { m with session := { m.session with captured := m.session.captured ++ [g] } }
      have gone : f ∉ grown.used [] grown.session.captured := gone
      obtain ⟨others, sub, needless⟩ := used_drops mem gone
      obtain ⟨dead, unwatched, offStack, unbound⟩ := unneeded sub needless
      have owners : grown.sweep.owners = grown.used [] grown.session.captured ++ grown.roots := by
        rw [Machine.owners, Session.handles, List.append_assoc]
        rfl
      refine ⟨?_, ?_, unwatched⟩
      · change grown.common.store.alive grown.sweep.owners f = false
        rw [owners]
        exact dead
      · rintro (stack | bound)
        · exact offStack (Value.mem_homesAll.mpr (.inl stack))
        · change grown.common.store.Knows grown.sweep.owners _ at bound
          rw [owners] at bound
          exact unbound bound
    · exact absurd mem gone

end Machine

/-! ## What refers to a frame -/

/-- A frame that is alive, or in which a function was made that is still there. -/
def Moment.Refers (x : Moment σ) (f : FrameId) : Prop :=
  x.machine.alive f = true ∨ x.Has (.home f) ∨ f ∈ x.machine.common.watched

/-- A frame that is referred to is not forgotten when a function is made. -/
theorem Machine.mem_capture {m : Machine σ} {hand : List Mark} {log : List Event} {f g : FrameId}
    (lives : m.Lives g) (none : ∀ h, .home h ∉ hand)
    (refers : Moment.Refers ⟨m.capture g, .home g :: hand, log⟩ f)
    (mem : f ∈ m.session.captured ++ [g]) : f ∈ (m.capture g).session.captured := by
  by_contra gone
  obtain ⟨dead, unknown, unwatched⟩ := m.forgotten mem gone
  have dead : ¬ (m.capture g).alive f = true := Bool.eq_false_iff.mp dead
  rcases refers with alive | (hand' | known) | watched
  · exact dead alive
  · rcases List.mem_cons.mp hand' with same | hand'
    · cases same
      have still : (m.capture f).Lives f := by
        rw [Machine.Lives, m.common_capture, m.roots_capture]
        exact lives
      exact dead still.alive
    · exact none f hand'
  · exact unknown known
  · exact unwatched (m.common_capture g ▸ watched)

namespace Move

variable {x y : Moment σ} {f : FrameId}

theorem watched (h : Move writable x y) :
    y.machine.common.watched = x.machine.common.watched := by
  cases h with
  | @call m m' _ _ home scope bindings _ _ _ same => rcases same with rfl | rfl <;> rfl
  | @capture m _ _ f => exact congrArg Common.watched (m.common_capture f)
  | _ => rfl

/-- What nothing refers to is gone for good. -/
theorem refers (h : Move writable x y) (sound : x.IsSound) (refers : y.Refers f) :
    x.Refers f ∨ x.machine.common.store.frames.size ≤ f := by
  rcases refers with alive | has | watched
  · exact (h.alive sound.owned alive).imp_left .inl
  · rcases h.has sound has with has | gains
    · exact .inl (.inr (.inl has))
    · cases gains with
      | alive alive => exact .inl (.inl alive)
      | new large => exact .inr large
      | watched mem => exact .inl (.inr (.inr mem))
  · exact .inl (.inr (.inr (h.watched ▸ watched)))

/-- A captured frame is kept while something refers to it. -/
theorem captured (h : Move writable x y) (refers : y.Refers f)
    (mem : f ∈ x.machine.session.captured) : f ∈ y.machine.session.captured := by
  cases h with
  | @call m m' _ _ home scope bindings _ _ _ same => rcases same with rfl | rfl <;> exact mem
  | capture lives none =>
      exact Machine.mem_capture lives none refers (List.mem_append_left _ mem)
  | _ => exact mem

/-- What a move adds to the log: nothing, a call in a new frame, or a function that is made. -/
theorem logs (h : Move writable x y) :
    y.log = x.log ∨
      (∃ home parent, y.log = x.log ++ [.called home parent x.machine.common.store.frames.size] ∧
        y.machine.common.store.frames.size = x.machine.common.store.frames.size + 1 ∧
        y.machine.common.store.parent? x.machine.common.store.frames.size = some parent ∧
        ∀ f, home = some f → x.Has (.home f) ∧ (x.machine.alive f = true → parent = f)) ∨
      ∃ f, y.log = x.log ++ [.made f] ∧ x.machine.alive f = true ∧
        (y.Refers f → f ∈ y.machine.session.captured) := by
  cases h with
  | @call m m' hand log home scope bindings lives owns _ same =>
      have around : ∀ f, home = some f → Moment.Has ⟨m, hand, log⟩ (.home f) ∧
          (m.alive f = true → m.around home scope = f) := by
        rintro f rfl
        exact ⟨.inl (owns f rfl), fun alive => if_pos alive⟩
      refine .inr (.inl ⟨home, m.around home scope, rfl, ?_⟩)
      rcases same with rfl | rfl
      · exact ⟨m.size_framed _ bindings, m.parent?_framed _ _, around⟩
      · exact ⟨m.size_framed _ bindings, m.parent?_framed _ _, around⟩
  | @capture m hand log f lives none =>
      refine .inr (.inr ⟨f, rfl, lives.alive, fun refers => ?_⟩)
      exact Machine.mem_capture lives none refers (by simp)
  | _ => exact .inl rfl

end Move

/-! ## What every move keeps -/

/-- The frame in which the body of a function ran. -/
def Event.frame? : Event → Option FrameId
  | .called _ _ frame => some frame
  | .made _ => none

/-- After the given events, a function of a home is called there. -/
def Event.Right (past : List Event) : Event → Prop
  | .called (some f) around _ => .made f ∈ past → around = f
  | _ => True

/-- The log of a session so far fits its frames, and the frames in which it has made functions are
kept while something refers to them. -/
structure Kept (x : Moment σ) : Prop where
  sound : x.IsSound
  made : ∀ f, .made f ∈ x.log →
    f < x.machine.common.store.frames.size ∧ (x.Refers f → f ∈ x.machine.session.captured)
  right : ∀ past e rest, x.log = past ++ e :: rest → e.Right past
  child : ∀ home parent f, .called home parent f ∈ x.log →
    f < x.machine.common.store.frames.size ∧ x.machine.common.store.parent? f = some parent
  fresh : (x.log.filterMap Event.frame?).Pairwise (· < ·)

theorem right_concat {log : List Event} {e : Event}
    (before : ∀ past e rest, log = past ++ e :: rest → e.Right past) (last : e.Right log)
    (past : List Event) (e' : Event) (rest : List Event) (same : log ++ [e] = past ++ e' :: rest) :
    e'.Right past := by
  rcases rest.eq_nil_or_concat with rfl | ⟨rest, e'', rfl⟩
  · obtain ⟨rfl, ⟨⟩⟩ := List.append_inj' same rfl
    exact last
  · rw [List.concat_eq_append, ← List.cons_append, ← List.append_assoc] at same
    obtain ⟨rfl, -⟩ := List.append_inj' same rfl
    exact before past e' rest rfl

namespace Kept

variable {x y : Moment σ} {f : FrameId}

theorem alive (kept : Kept x) (made : .made f ∈ x.log) (refers : x.Refers f) :
    x.machine.alive f = true := by
  refine Machine.alive_of_mem ?_
  rw [Machine.owners, Session.handles, List.append_assoc]
  exact List.mem_append_left _ ((kept.made f made).2 refers)

/-- The frames of the log stay as they are when nothing is added to it. -/
theorem of_log (kept : Kept x) (sound : y.IsSound) (log : y.log = x.log)
    (grows : x.machine.common.store.Extends y.machine.common.store)
    (captured : ∀ f, f < x.machine.common.store.frames.size → y.Refers f →
      (x.Refers f → f ∈ x.machine.session.captured) → f ∈ y.machine.session.captured) : Kept y where
  sound := sound
  made f made := by
    obtain ⟨lt, mem⟩ := kept.made f (log ▸ made)
    exact ⟨Nat.lt_of_lt_of_le lt grows.size, fun refers => captured f lt refers mem⟩
  right := log ▸ kept.right
  child home parent f called := by
    obtain ⟨lt, child⟩ := kept.child home parent f (log ▸ called)
    exact ⟨Nat.lt_of_lt_of_le lt grows.size, (grows.parent f lt).trans child⟩
  fresh := log ▸ kept.fresh

theorem move (h : Move writable x y) (kept : Kept x) : Kept y := by
  have sound := h.sound kept.sound
  have captured : ∀ f, f < x.machine.common.store.frames.size → y.Refers f →
      (x.Refers f → f ∈ x.machine.session.captured) → f ∈ y.machine.session.captured := by
    intro f lt refers mem
    have before := (h.refers kept.sound refers).resolve_right (Nat.not_le_of_lt lt)
    exact h.captured refers (mem before)
  rcases h.logs with log | ⟨home, parent, log, size, child, around⟩ | ⟨f, log, alive, mem⟩
  · exact kept.of_log sound log h.grows captured
  · -- the same run without the last event is kept, and the call has happened at home
    have before : Kept (⟨y.machine, y.hand, x.log⟩ : Moment σ) :=
      kept.of_log ⟨sound.owned, sound.made, sound.hand⟩ rfl h.grows captured
    exact {
      sound := sound
      made := fun f made => before.made f (by simpa [log] using made)
      right := by
        rw [log]
        refine right_concat kept.right ?_
        cases home with
        | none => trivial
        | some f =>
            obtain ⟨has, at_home⟩ := around f rfl
            exact fun made => at_home (kept.alive made (.inr (.inl has)))
      child := fun home' parent' f called => by
        rw [log, List.mem_append, List.mem_singleton] at called
        rcases called with called | last
        · exact before.child home' parent' f called
        · cases last
          exact ⟨size ▸ Nat.lt_succ_self _, child⟩
      fresh := by
        rw [log, List.filterMap_append, List.pairwise_append]
        refine ⟨kept.fresh, List.pairwise_singleton _ _, ?_⟩
        intro f mem g new
        obtain ⟨e, among, same⟩ := List.mem_filterMap.mp mem
        cases e with
        | made => exact nomatch same
        | called home' parent' frame =>
            cases same
            cases List.mem_singleton.mp new
            exact (kept.child home' parent' f among).1 }
  · have before : Kept (⟨y.machine, y.hand, x.log⟩ : Moment σ) :=
      kept.of_log ⟨sound.owned, sound.made, sound.hand⟩ rfl h.grows captured
    exact {
      sound := sound
      made := fun g made => by
        rw [log, List.mem_append, List.mem_singleton] at made
        rcases made with made | last
        · exact before.made g made
        · cases last
          exact ⟨Nat.lt_of_lt_of_le (kept.sound.owned.lt_of_alive alive) h.grows.size, mem⟩
      right := by
        rw [log]
        exact right_concat kept.right trivial
      child := fun home parent g called => before.child home parent g (by simpa [log] using called)
      fresh := by
        have none : [Event.made f].filterMap Event.frame? = [] := rfl
        rw [log, List.filterMap_append, none, List.append_nil]
        exact kept.fresh }

theorem moves (h : Moves writable x y) (kept : Kept x) : Kept y := by
  induction h with
  | refl => exact kept
  | tail _ move ih => exact ih.move move

end Kept

end PeerScript
