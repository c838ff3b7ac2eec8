import Mathlib
import PeerScript.Proofs.Closures
import PeerScript.Proofs.Moves.Scripts

/-!
# Lives of sessions

A `Life` of a session is what can be done with it from its beginning on, with what others do between
and during its runs.  In all its states a function that the session has made and that is still there
is called at home (`functions_stay_home`).  When the session is dropped, the frames of the functions
that it has called go with it, unless others own them: a function does not own its home, so no
frame is kept by what is bound in it.
-/

set_option autoImplicit false

namespace PeerScript

variable {σ : Type} {writable : FrameId → Prop}

/-! ## Between runs -/

namespace Machine

/-- A value that others hold. -/
def Lent (m : Machine σ) (v : Value) : Prop :=
  ∀ μ ∈ v.marks, (∃ f ∈ m.common.watched, μ = .home f) ∨ ∃ n < m.common.serial, μ = .serial n

/-- The machine after others have taken the top values of its stack. -/
def take (m : Machine σ) (count : Nat) : Machine σ :=
  { session := { m.session with stack := m.session.stack.drop count }
    common := { m.common with
      watched := Value.homesAll (m.session.stack.take count) ++ m.common.watched } }

/-- The machine with another ambient scope. -/
def within (m : Machine σ) (scope : FrameId) : Machine σ :=
  { m with session := { m.session with ambient := scope } }

/-- Others have acted, and may have handled the session, but it has not run.  A new handle of them
is one on a frame that was alive or is new, and the functions that they put anywhere are those that
they had or found, or whose homes are alive or new. -/
structure Handled (m m' : Machine σ) : Prop where
  registry : m'.session.registry = m.session.registry
  captured : m'.session.captured = m.session.captured
  leads : m.whole.Leads m'.common
  roots : ∀ o ∈ m'.roots, m.alive o = true ∨
    (m.common.store.frames.size ≤ o ∧ o < m'.common.store.frames.size)
  stack : ∀ μ ∈ Value.marksAll m'.session.stack,
    μ ∈ Value.marksAll m.session.stack ∨ m.whole.Offers m'.common μ
  watched : ∀ f ∈ m'.common.watched, m.whole.Offers m'.common (.home f)

namespace Handled

variable {m m' : Machine σ} {log : List Event} {f : FrameId} {μ : Mark}

theorem owners (h : m.Handled m') : ∀ o ∈ m'.owners, m.alive o = true ∨
    (m.common.store.frames.size ≤ o ∧ o < m'.common.store.frames.size) := by
  intro o owns
  rw [Machine.owners, Session.handles, List.append_assoc, List.mem_append, h.captured] at owns
  rcases owns with captured | root
  · refine .inl (alive_of_mem ?_)
    rw [Machine.owners, Session.handles, List.append_assoc]
    exact List.mem_append_left _ captured
  · exact h.roots o root

theorem below (h : m.Handled m') (o : FrameId)
    (known : m.alive o = true ∨ m.common.store.frames.size ≤ o)
    (mem : f ∈ m'.common.store.chain o) : m.alive f = true ∨ m.common.store.frames.size ≤ f := by
  induction o using Nat.strongRecOn with
  | ind o ih =>
      by_cases lt : o < m.common.store.frames.size
      · rw [h.leads.grows.chain_eq lt] at mem
        exact .inl (alive_of_chain (known.resolve_right (Nat.not_le_of_lt lt)) mem)
      · have new : m.common.store.frames.size ≤ o := Nat.le_of_not_lt lt
        rcases Store.chain_cases m'.common.store o with same | ⟨p, parent, less, same⟩
        · rw [same, List.mem_singleton] at mem
          exact .inr (mem ▸ new)
        · rw [same] at mem
          rcases List.mem_cons.mp mem with rfl | mem
          · exact .inr new
          · exact ih p less (h.leads.parent o p new parent) mem

theorem alive (h : m.Handled m') (alive : m'.alive f = true) :
    m.alive f = true ∨ m.common.store.frames.size ≤ f := by
  obtain ⟨o, owns, mem⟩ := Store.alive_iff.mp alive
  exact h.below o ((h.owners o owns).imp_right And.left) mem

/-- What the session has afterwards it had, or others had it to give. -/
theorem knows (h : m.Handled m') (sound : Moment.IsSound ⟨m, [], log⟩) (known : m'.Knows μ) :
    Moment.Has ⟨m, [], log⟩ μ ∨ Moment.Gains ⟨m, [], log⟩ ⟨m', [], log⟩ μ := by
  have offered := fun (offer : m.whole.Offers m'.common μ) =>
    Move.offers (y := ⟨m', [], log⟩) sound offer (Nat.le_refl _)
  rcases known with stack | ⟨o, owns, g, mem, marked⟩
  · exact (h.stack μ stack).elim (fun own => .inl (.inr (.inl own))) offered
  · have alive := h.alive (Store.alive_iff.mpr ⟨o, owns, mem⟩)
    rcases h.leads.marked g μ marked with before | offer
    · rcases alive with alive | large
      · exact .inl (.inr (known_of_marked alive before))
      · change μ ∈ m.common.store.marked g at before
        rw [Store.marked_of_le large] at before
        exact nomatch before
    · exact offered offer

theorem made (h : m.Handled m')
    (old : m.Made μ ∨ Moment.Gains ⟨m, [], log⟩ ⟨m', [], log⟩ μ) : m'.Made μ := by
  rcases old with made | gains
  · cases μ with
    | home => trivial
    | inner => exact made
    | serial => exact Nat.lt_of_lt_of_le made h.leads.serial
  · cases gains with
    | serial lt => exact lt
    | _ => trivial

theorem sound (h : m.Handled m') (sound : Moment.IsSound ⟨m, [], log⟩) :
    Moment.IsSound ⟨m', [], log⟩ where
  owned o owns := by
    rcases h.owners o owns with alive | ⟨-, lt⟩
    · exact Nat.lt_of_lt_of_le (sound.owned.lt_of_alive alive) h.leads.grows.size
    · exact lt
  made := {
    stack := fun μ mem => h.made ((h.knows sound (.inl mem)).imp_left sound.has)
    bound := fun f μ mem => by
      rcases h.leads.marked f μ mem with before | offer
      · have old : m.Made μ ∨ Moment.Gains ⟨m, [], log⟩ ⟨m', [], log⟩ μ :=
          .inl (sound.made.bound f μ before)
        exact h.made old
      · have offered := Move.offers (y := ⟨m', [], log⟩) sound offer (Nat.le_refl _)
        exact h.made (offered.imp_left sound.has) }
  hand := nofun

theorem refers (h : m.Handled m') (sound : Moment.IsSound ⟨m, [], log⟩)
    (refers : Moment.Refers ⟨m', [], log⟩ f) :
    Moment.Refers ⟨m, [], log⟩ f ∨ m.common.store.frames.size ≤ f := by
  have had : Moment.Has ⟨m, [], log⟩ (.home f) ∨
      Moment.Gains ⟨m, [], log⟩ ⟨m', [], log⟩ (.home f) →
      Moment.Refers ⟨m, [], log⟩ f ∨ m.common.store.frames.size ≤ f := by
    rintro (has | gains)
    · exact .inl (.inr (.inl has))
    · cases gains with
      | alive alive => exact .inl (.inl alive)
      | new large => exact .inr large
      | watched mem => exact .inl (.inr (.inr mem))
  rcases refers with alive | has | watched
  · exact (h.alive alive).imp_left .inl
  · exact had (h.knows sound (has.resolve_left List.not_mem_nil))
  · exact had (Move.offers (y := ⟨m', [], log⟩) sound (h.watched f watched) (Nat.le_refl _))

theorem kept (h : m.Handled m') (kept : Kept ⟨m, [], log⟩) : Kept ⟨m', [], log⟩ := by
  refine kept.of_log (h.sound kept.sound) rfl h.leads.grows fun f lt refers mem => ?_
  have before := (h.refers kept.sound refers).resolve_right (Nat.not_le_of_lt lt)
  change f ∈ m'.session.captured
  rw [h.captured]
  exact mem before

end Handled

/-! The ways in which others handle a session. -/

section Ways

variable {m : Machine σ}

theorem Lent.offered {v : Value} (h : m.Lent v) {d : Common σ}
    (serial : m.common.serial ≤ d.serial) :
    ∀ μ ∈ v.marks, m.whole.Offers d μ := by
  intro μ mem
  rcases h μ mem with ⟨f, watched, rfl⟩ | ⟨n, lt, rfl⟩
  · exact .watched (List.mem_append_right _ watched)
  · exact .serial (Nat.lt_of_lt_of_le lt serial)

theorem leads_refl (c : Common σ) {d : Common σ} (store : d.store = c.store)
    (serial : c.serial ≤ d.serial) : c.Leads d where
  grows := store ▸ .refl _
  serial := serial
  parent f p large known := by
    rw [store] at known
    exact absurd (Store.lt_of_parent? known) (Nat.not_lt_of_le large)
  marked _ _ mem := .inl (store ▸ mem)

theorem roots_alive (m : Machine σ) : ∀ o ∈ m.roots, m.alive o = true := fun _ mem =>
  alive_of_mem (m.roots_subset mem)

theorem watched_offered (m : Machine σ) (d : Common σ) :
    ∀ f ∈ m.common.watched, m.whole.Offers d (.home f) := fun _ mem =>
  .watched (List.mem_append_right _ mem)

theorem handled_push {v : Value} (lent : m.Lent v) : m.Handled (m.push v) where
  registry := rfl
  captured := rfl
  leads := leads_refl _ rfl (Nat.le_refl _)
  roots o root := .inl (m.roots_alive o root)
  stack μ mem := (List.mem_append.mp mem).elim
    (fun own => .inr (lent.offered (Nat.le_refl _) μ own)) .inl
  watched := m.watched_offered _

theorem handled_take (m : Machine σ) (count : Nat) : m.Handled (m.take count) where
  registry := rfl
  captured := rfl
  leads := leads_refl _ rfl (Nat.le_refl _)
  roots o root := .inl (m.roots_alive o root)
  stack _ mem := .inl (Value.marksAll_subset (List.drop_subset _ _) mem)
  watched f mem := by
    rcases List.mem_append.mp mem with taken | before
    · refine .watched (List.mem_append_left _ ?_)
      exact Value.mem_homesAll.mpr ((Value.mem_homesAll.mp taken).imp
        (fun mem => Value.marksAll_subset (List.take_subset _ _) mem)
        fun mem => Value.marksAll_subset (List.take_subset _ _) mem)
    · exact m.watched_offered _ f before

theorem handled_bind {v : Value} (lent : m.Lent v) (f : FrameId) (name : String) :
    m.Handled (m.bind f name v) where
  registry := rfl
  captured := rfl
  leads := {
    grows := Store.extends_set _ _ _ _
    serial := Nat.le_refl _
    parent := fun g p large known => by
      have known : m.common.store.parent? g = some p := (Store.parent?_set v).symm.trans known
      exact absurd (Store.lt_of_parent? known) (Nat.not_lt_of_le large)
    marked := fun _ μ mem => (Store.marked_set mem).imp_right fun own =>
      lent.offered (d := (m.bind f name v).common) (Nat.le_refl _) μ own }
  roots o root := .inl (m.roots_alive o root)
  stack _ mem := .inl mem
  watched := m.watched_offered _

theorem handled_numbered {serial : Nat} (grows : m.common.serial ≤ serial) :
    m.Handled (m.numbered serial) where
  registry := rfl
  captured := rfl
  leads := leads_refl _ rfl grows
  roots o root := .inl (m.roots_alive o root)
  stack _ mem := .inl mem
  watched := m.watched_offered _

theorem handled_within {scope : FrameId} (alive : m.alive scope = true) :
    m.Handled (m.within scope) where
  registry := rfl
  captured := rfl
  leads := leads_refl _ rfl (Nat.le_refl _)
  roots o root := by
    rcases List.mem_cons.mp root with rfl | root
    · exact .inl alive
    · exact .inl (m.roots_alive o (List.mem_cons_of_mem _ root))
  stack _ mem := .inl mem
  watched := m.watched_offered _

end Ways

end Machine

/-! ## Lives -/

/-- The machine that a run ends with, whichever way it ends. -/
def Run.final {α : Type} (r : Run σ α) (m : Machine σ) : Machine σ :=
  match r m with
  | .ok _ m' | .error _ m' => m'

theorem Follows.final {r : Run σ Unit} {m : Machine σ} {hand : List Mark} {events : List Event}
    (h : Follows writable m hand r events fun _ => []) :
    Reaches writable m hand events (r.final m) [] := by
  cases ran : r m with
  | ok a m' =>
      rw [Follows, ran] at h
      rw [Run.final, ran]
      exact h
  | error stop m' =>
      rw [Follows, ran] at h
      rw [Run.final, ran]
      exact h

/-- What happens to functions while a tree is run in a scope with all levels that may still nest. -/
def evalEvents (host : Host σ) (t : Tree) (scope : FrameId) (m : Machine σ) : List Event :=
  treeEvents host m.levels (watch host m.levels) t scope m

/-- What happens to functions when a value is invoked. -/
def invokeEvents (host : Host σ) (callee : Value) (args : List Value) (m : Machine σ) :
    List Event :=
  callEvents (watch host m.levels) callee args m.session.ambient m

/-- What can be done with a session from its beginning on, and what has happened to functions so
far. -/
inductive Life (host : Host σ) : Machine σ → List Event → Prop
  | start {registry : Registry} {ambient : FrameId} {c : Common σ} :
      Machine.Fit (fun _ => True) ⟨.new registry ambient, c⟩ →
      Life host ⟨.new registry ambient, c⟩ []
  | script {m : Machine σ} {log : List Event} {t : Tree} :
      Life host m log → m.Accepts t →
      Life host ((runScript host t).final m) (log ++ evalEvents host t m.session.ambient m)
  /-- a tree is run in a given scope -/
  | runIn {m : Machine σ} {log : List Event} {t : Tree} {scope : FrameId} :
      Life host m log → m.Accepts t → m.Lives scope →
      Life host ((evalIn host t scope).final m) (log ++ evalEvents host t scope m)
  | invoke {m : Machine σ} {log : List Event} {callee : Value} {name : String} {args : List Value} :
      Life host m log → (∀ v ∈ callee :: args, m.Lent v) →
      Life host ((invoke host callee name args).final m) (log ++ invokeEvents host callee args m)
  | push {m : Machine σ} {log : List Event} {v : Value} :
      Life host m log → m.Lent v → Life host (m.push v) log
  /-- the top values are taken off the stack -/
  | take {m : Machine σ} {log : List Event} {count : Nat} :
      Life host m log → Life host (m.take count) log
  | bind {m : Machine σ} {log : List Event} {f : FrameId} {name : String} {v : Value} :
      Life host m log → m.Lent v → Life host (m.bind f name v) log
  /-- the ambient scope is changed -/
  | within {m : Machine σ} {log : List Event} {scope : FrameId} :
      Life host m log → m.alive scope = true → Life host (m.within scope) log
  /-- others act: they give handles and functions up or get new ones, make frames, bind names -/
  | others {m m' : Machine σ} {log : List Event} :
      Life host m log → m.Handled m' → Life host m' log

section Lives

variable {host : Host σ} {m : Machine σ} {log : List Event} {scope : FrameId} {t : Tree}

theorem moves_evalIn (tidy : host.IsTidy writable) (ready : m.Ready writable scope)
    (accepts : m.Accepts t) (log : List Event) : Moves writable ⟨m, [], log⟩
      ⟨(evalIn host t scope).final m, [], log ++ evalEvents host t scope m⟩ := by
  have ran := (followed tidy m.levels).tree t scope m ready accepts
  exact ran.final.moves log

theorem moves_runScript (tidy : host.IsTidy writable) (ready : m.Ready writable m.session.ambient)
    (accepts : m.Accepts t) (log : List Event) : Moves writable ⟨m, [], log⟩
      ⟨(runScript host t).final m, [], log ++ evalEvents host t m.session.ambient m⟩ := by
  have ran := moves_evalIn tidy ready accepts log
  rw [Run.final] at ran ⊢
  rw [runScript_eq]
  cases result : evalIn host t m.session.ambient m with
  | ok a m' =>
      rw [result] at ran
      exact ran
  | error stop m' =>
      rw [result] at ran
      cases stop with
      | failed fault =>
          refine (ran.tail (.count (List.Subset.refl _))).tail (.stack fun μ mem => ?_)
          exact .known (.inl mem)
      | broken => exact ran
      | unfinished => exact ran

theorem moves_invoke (tidy : host.IsTidy writable) (fit : m.Fit writable)
    {callee : Value} {name : String} {args : List Value} {hand : List Mark}
    (made : ∀ μ ∈ hand, m.Made μ) (owns : callee.marks ⊆ hand) (given : Value.marksAll args ⊆ hand)
    (log : List Event) : Moves writable ⟨m, hand, log⟩
      ⟨(invoke host callee name args).final m, [], log ++ invokeEvents host callee args m⟩ := by
  have below : ∀ fewer, m.levels = fewer + 1 → Followed writable host fewer :=
    fun fewer _ => followed tidy fewer
  have ran : Follows writable m hand
      (callValue host (inside host m.levels) callee name args m.session.ambient) _ fun _ => [] :=
    follows_call below fit m.lives_ambient made owns given
  exact ran.final.moves log

/-- What others hold can be given to a session. -/
theorem Kept.lend {hand : List Mark} (kept : Kept ⟨m, [], log⟩)
    (lent : ∀ μ ∈ hand, (∃ f ∈ m.common.watched, μ = .home f) ∨ ∃ n < m.common.serial,
      μ = .serial n) :
    Kept ⟨m, hand, log⟩ := by
  have sound : Moment.IsSound ⟨m, hand, log⟩ := by
    refine ⟨kept.sound.owned, kept.sound.made, fun μ mem => ?_⟩
    rcases lent μ mem with ⟨f, -, rfl⟩ | ⟨n, lt, rfl⟩
    · trivial
    · exact lt
  refine kept.of_log sound rfl (.refl _) fun f _ refers mem => mem ?_
  rcases refers with alive | (own | known) | watched
  · exact .inl alive
  · rcases lent _ own with ⟨g, watched, same⟩ | ⟨n, -, same⟩
    · cases same
      exact .inr (.inr watched)
    · exact nomatch same
  · exact .inr (.inl (.inr known))
  · exact .inr (.inr watched)

/-- A session of which others have made no more than they may is one on which something can be
run. -/
theorem Life.kept (tidy : host.IsTidy fun _ => True) (life : Life host m log) :
    m.session.registry.KeepsMarks ∧ Kept ⟨m, [], log⟩ := by
  have fit : ∀ {m : Machine σ} {log : List Event},
      m.session.registry.KeepsMarks ∧ Kept ⟨m, [], log⟩ → m.Fit fun _ => True :=
    fun h => ⟨h.2.sound.owned, h.2.sound.made, h.1, fun _ _ => trivial⟩
  have moved : ∀ {m m' : Machine σ} {hand : List Mark} {log log' : List Event},
      m.session.registry.KeepsMarks → Kept ⟨m, hand, log⟩ →
      Moves (fun _ => True) ⟨m, hand, log⟩ ⟨m', [], log'⟩ →
      m'.session.registry.KeepsMarks ∧ Kept ⟨m', [], log'⟩ :=
    fun registry kept moves => ⟨moves.registry ▸ registry, kept.moves moves⟩
  have handled : ∀ {m m' : Machine σ} {log : List Event},
      m.session.registry.KeepsMarks ∧ Kept ⟨m, [], log⟩ → m.Handled m' →
      m'.session.registry.KeepsMarks ∧ Kept ⟨m', [], log⟩ :=
    fun h step => ⟨step.registry ▸ h.1, step.kept h.2⟩
  induction life with
  | start fit =>
      exact ⟨fit.registry, fit.sound (List.forall_mem_nil _), by simp,
        fun past e rest same => absurd same (by simp),
        by simp, .nil⟩
  | script _ accepts ih =>
      exact moved ih.1 ih.2 (moves_runScript tidy ((fit ih).ready_ambient trivial) accepts _)
  | runIn _ accepts lives ih =>
      exact moved ih.1 ih.2 (moves_evalIn tidy ⟨fit ih, lives, trivial⟩ accepts _)
  | @invoke m log callee name args _ lent ih =>
      have known : ∀ μ ∈ Value.marksAll (callee :: args),
          (∃ f ∈ m.common.watched, μ = .home f) ∨ ∃ n < m.common.serial, μ = .serial n := by
        intro μ mem
        obtain ⟨v, among, mem⟩ := Value.mem_marksAll.mp mem
        exact lent v among μ mem
      have kept := ih.2.lend known
      refine moved ih.1 kept (moves_invoke tidy (fit ih)
        kept.sound.hand ?_ ?_ _)
      · exact List.subset_append_left _ _
      · exact List.subset_append_right _ _
  | push _ lent ih => exact handled ih (Machine.handled_push lent)
  | @take m log count _ ih => exact handled ih (m.handled_take count)
  | bind _ lent ih => exact handled ih (Machine.handled_bind lent _ _)
  | within _ alive ih => exact handled ih (Machine.handled_within alive)
  | others _ step ih => exact handled ih step

/-- A frame is alive for others only by what others own: a frame with a handle of theirs, or one of
theirs that is alive. -/
theorem Store.owned_of_alive {s : Store} {held : List FrameId} {own : FrameId → Prop}
    (below : ∀ f p, s.alive held f = true → s.parent? f = some p → own p → own f) {f : FrameId}
    (mine : own f) (alive : s.alive held f = true) : ∃ o ∈ held, own o := by
  obtain ⟨o, owns, mem⟩ := Store.alive_iff.mp alive
  have up : ∀ g, g ∈ s.chain o → f ∈ s.chain g → own g := by
    intro g
    induction g using Nat.strongRecOn with
    | ind g ih =>
        intro above mem
        rcases s.chain_cases g with same | ⟨p, parent, less, same⟩
        · rw [same, List.mem_singleton] at mem
          exact mem ▸ mine
        · rw [same] at mem
          rcases List.mem_cons.mp mem with rfl | mem
          · exact mine
          · refine below g p (Store.alive_iff.mpr ⟨o, owns, above⟩) parent (ih p less ?_ mem)
            refine (Store.chain_subset above).2 ?_
            rw [same]
            exact List.mem_cons_of_mem _ (Store.mem_chain_self _ _)
  exact ⟨o, owns, up o (Store.mem_chain_self _ _) mem⟩

/-- A script may be given as a text.  To translate it uses up numbers, and the machine can run the
tree. -/
theorem Life.text (life : Life host m log) (natural : m.session.registry.IsNatural)
    {language : Script.Language} {isBound : String → Bool} {source : String} {after : Nat}
    (parsed : Script.parse language ⟨isBound, m.session.registry⟩ source m.common.serial =
      .ok (t, after)) :
    Life host (m.numbered after) log ∧ (m.numbered after).Accepts t.bare := by
  obtain ⟨grows, marks⟩ := marks_of_parse natural parsed
  refine ⟨.others life (Machine.handled_numbered grows), fun μ mem => marks μ ?_⟩
  unfold Tree.bare at mem
  split at mem
  · exact List.mem_append_left _ mem
  · exact mem

/-- A function made in the frame is still there: on the stack, bound in a frame that is alive, or
with others. -/
def Machine.HasFunction (m : Machine σ) (f : FrameId) : Prop :=
  m.Knows (.home f) ∨ f ∈ m.common.watched

/-- In all states of a session, a function that the session has made and that is still there has its
home, and wherever in a run it is called, its body runs in a new frame right below its home.  When
the session is dropped and others own none of the frames in which bodies have run, neither by a
handle nor by a frame below it that they made, none of these frames is alive any more. -/
theorem functions_stay_home (tidy : host.IsTidy fun _ => True) (life : Life host m log) :
    (∀ f, .made f ∈ log → m.HasFunction f →
      m.alive f = true ∧ ∀ caller, frameAround (some f) caller m = .ok f m) ∧
    (∀ past f around frame rest, log = past ++ .called (some f) around frame :: rest →
      .made f ∈ past → around = f ∧ m.common.store.parent? frame = some f ∧
        ∀ earlier ∈ past.filterMap Event.frame?, earlier < frame) ∧
    ((∀ frame ∈ log.filterMap Event.frame?, frame ∉ m.common.held ∧
        ∀ below, m.common.store.alive m.common.held below = true →
          m.common.store.parent? below = some frame → below ∈ log.filterMap Event.frame?) →
      ∀ frame ∈ log.filterMap Event.frame?, m.common.store.alive m.common.held frame = false) := by
  have kept := (life.kept tidy).2
  refine ⟨fun f made there => ?_, fun past f around frame rest same made => ?_,
    fun alone frame ran => Bool.eq_false_iff.mpr fun alive => ?_⟩
  · have alive : m.alive f = true := kept.alive made (.inr (there.imp_left .inr))
    refine ⟨alive, fun caller => ?_⟩
    rw [frameAround_eq, Machine.around, if_pos alive]
  · obtain rfl : around = f := kept.right past _ rest same made
    have among : Event.called (some around) around frame ∈ log := by
      rw [same]
      exact List.mem_append_right _ List.mem_cons_self
    refine ⟨rfl, (kept.child _ _ _ among).2, fun earlier mem => ?_⟩
    have fresh := kept.fresh
    rw [same, List.filterMap_append, List.pairwise_append] at fresh
    exact fresh.2.2 earlier mem frame List.mem_cons_self
  · have below : ∀ f p, m.common.store.alive m.common.held f = true →
        m.common.store.parent? f = some p → p ∈ log.filterMap Event.frame? →
        f ∈ log.filterMap Event.frame? := fun f p alive parent own => (alone p own).2 f alive parent
    obtain ⟨o, owns, own⟩ := Store.owned_of_alive below ran alive
    exact (alone o own).1 owns

end Lives

/-- No objects. -/
def quiet : Host Unit := ⟨fun _ _ => "", fun _ _ _ => none, fun _ _ _ => .done⟩

theorem quiet_tidy : quiet.IsTidy fun _ => True := ⟨nofun, fun _ _ _ _ _ _ => trivial⟩

/-- A new session in a scope that binds nothing. -/
def bareMachine : Machine Unit :=
  ⟨.new .standard 0, { Common.new () with store := (Store.empty.alloc none).1 }⟩

theorem bareMachine_fit : bareMachine.Fit fun _ => True where
  owned f owns := by
    rw [List.mem_singleton.mp (show f ∈ [0] from owns)]
    exact Nat.one_pos
  made := {
    stack := nofun
    bound := fun f μ marked => by
      have empty : bareMachine.common.store.marked f = [] :=
        (Store.marked_alloc (s := .empty) none f).trans (Store.marked_of_le (Nat.zero_le f))
      rw [empty] at marked
      exact nomatch marked }
  registry := Registry.standard_keepsMarks
  fresh _ _ := trivial

/-- Binds a function that makes a function. -/
def makingTree : Tree := .bind "g" <|
  .literal (.closure [] (.sequence [.literal (.closure [] (.sequence []) none)]) none)

set_option maxRecDepth 20000 in
theorem parse_making : Script.parse .pi ⟨fun _ => false, .standard⟩ "g = {{}}" 0 =
    .ok (.sequence [makingTree], 0) := by cbv

/-- Calls it so often that unused frames are looked for, keeps what the last call has made, and
calls that. -/
def sweepingTree : Tree := .sequence <|
  List.replicate 63 (.bind "x" (.invoke ⟨["g"]⟩ [])) ++ [.invoke ⟨["x"]⟩ []]

/-- What happens to functions meanwhile. -/
def sweepingEvents : List Event :=
  (List.range' 1 63).flatMap (fun frame => [.called (some 0) 0 frame, .made frame]) ++
    [.called (some 63) 63 64]

/-- What is left behind both. -/
def sweptMachine : Machine Unit :=
  (runScript quiet sweepingTree).final ((runScript quiet makingTree).final bareMachine)

set_option maxRecDepth 20000 in
theorem life_swept : Life quiet sweptMachine (.made 0 :: sweepingEvents) := by
  have start : Life quiet bareMachine [] := .start bareMachine_fit
  obtain ⟨ready, accepts⟩ := start.text Registry.standard_isNatural parse_making
  have making : evalEvents quiet makingTree 0 bareMachine = [.made 0] := by decide +kernel
  have calling : evalEvents quiet sweepingTree 0 ((runScript quiet makingTree).final bareMachine) =
      sweepingEvents := by decide +kernel
  have made : Life quiet ((runScript quiet makingTree).final bareMachine)
      ([] ++ evalEvents quiet makingTree 0 bareMachine) := ready.script accepts
  rw [making, List.nil_append] at made
  have called := made.script (t := sweepingTree) nofun
  change Life quiet sweptMachine ([.made 0] ++ evalEvents quiet sweepingTree 0 _) at called
  rwa [calling] at called

set_option maxRecDepth 20000 in
/-- The frames of 61 functions that are gone have been forgotten.  The last one that was made has
been called at home, and when the session is dropped, no frame is alive in which a body has run. -/
theorem functions_stay_home_swept :
    Life quiet sweptMachine (.made 0 :: sweepingEvents) ∧
    sweptMachine.session.captured = [0, 62, 63] ∧ sweptMachine.HasFunction 63 ∧
    frameAround (some 63) 0 sweptMachine = .ok 63 sweptMachine ∧
    sweptMachine.common.store.parent? 64 = some 63 ∧
    ∀ frame ∈ List.range' 1 64, sweptMachine.common.store.alive sweptMachine.common.held frame =
      false := by
  have alive : sweptMachine.alive 0 = true := by decide +kernel
  have marked : .home 63 ∈ sweptMachine.common.store.marked 0 := by decide +kernel
  have there : sweptMachine.HasFunction 63 := .inl (Machine.known_of_marked alive marked)
  have held : sweptMachine.common.held = [] := by decide +kernel
  obtain ⟨home, calls, gone⟩ := functions_stay_home quiet_tidy life_swept
  refine ⟨life_swept, by decide +kernel, there, (home 63 (by decide) there).2 0, ?_,
    fun frame mem => ?_⟩
  · have split : Event.made 0 :: sweepingEvents =
        (.made 0 :: (sweepingEvents.dropLast)) ++ .called (some 63) 63 64 :: [] := by decide
    exact (calls _ 63 63 64 [] split (by decide)).2.1
  · refine gone (fun frame _ => ⟨held ▸ List.not_mem_nil, fun below alive => ?_⟩) frame ?_
    · rw [held] at alive
      cases alive
    · have frames : (Event.made 0 :: sweepingEvents).filterMap Event.frame? =
          List.range' 1 64 := by decide
      exact frames ▸ mem

end PeerScript
