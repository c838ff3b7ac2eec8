import Mathlib.Logic.Relation
import PeerScript.Proofs.Marks
import PeerScript.Proofs.Underrun

/-!
# Moves

Whatever a script does, it does in a few kinds of moves: it learns what is bound in the frames that
are alive, changes the stack, binds a name, calls a function in a new frame, captures a frame, makes
an instance.  A `Move` says what a machine may become and which marks the run has then in hand,
besides those that are on the stack and in the frames.

Two of the moves are events that are kept in a log: a function is made in a frame, and a function is
called.  What all moves keep is kept by every run that is a chain of moves: frames stay where they
are, what is not alive stays so, and a mark that has not been there is one of something new.
-/

set_option autoImplicit false

namespace PeerScript

variable {σ α β : Type}

/-! ## Chains of frames -/

namespace Store

variable {s t : Store} {f g : FrameId}

/-- The frames of a store are there in another one, each below the same parent. -/
structure Extends (s t : Store) : Prop where
  size : s.frames.size ≤ t.frames.size
  parent : ∀ f < s.frames.size, t.parent? f = s.parent? f

theorem Extends.refl (s : Store) : s.Extends s := ⟨Nat.le_refl _, fun _ _ => rfl⟩

theorem Extends.trans {u : Store} (h : s.Extends t) (k : t.Extends u) : s.Extends u :=
  ⟨Nat.le_trans h.size k.size, fun f lt =>
    (k.parent f (Nat.lt_of_lt_of_le lt h.size)).trans (h.parent f lt)⟩

/-- A chain ends with a frame or goes on with the chain of its parent. -/
theorem chain_cases (s : Store) (f : FrameId) :
    s.chain f = [f] ∨ ∃ p, s.parent? f = some p ∧ p < f ∧ s.chain f = f :: s.chain p := by
  cases known : s.parent? f with
  | none => exact .inl (chain_of_none known)
  | some p =>
      by_cases below : p < f
      · exact .inr ⟨p, rfl, below, chain_of_some known below⟩
      · rw [chain, known]
        exact .inl (if_neg below)

theorem Extends.chain_eq (h : s.Extends t) (lt : f < s.frames.size) : t.chain f = s.chain f := by
  induction f using Nat.strongRecOn with
  | ind f ih =>
      have same := h.parent f lt
      rw [chain, chain, same]
      split
      · rfl
      · split
        · rename_i p _ below
          rw [ih p below (Nat.lt_trans below lt)]
        · rfl

theorem mem_chain_self (s : Store) (f : FrameId) : f ∈ s.chain f := by
  rcases s.chain_cases f with same | ⟨p, -, -, same⟩ <;> rw [same] <;> exact List.mem_cons_self

/-- The chain of a frame of a chain is the rest of it. -/
theorem chain_subset (h : g ∈ s.chain f) : g ≤ f ∧ s.chain g ⊆ s.chain f := by
  induction f using Nat.strongRecOn with
  | ind f ih =>
      rcases s.chain_cases f with same | ⟨p, -, below, same⟩
      · rw [same, List.mem_singleton] at h
        subst h
        exact ⟨Nat.le_refl _, List.Subset.refl _⟩
      · rw [same] at h
        rcases List.mem_cons.mp h with rfl | mem
        · exact ⟨Nat.le_refl _, List.Subset.refl _⟩
        · obtain ⟨le, sub⟩ := ih p below mem
          rw [same]
          exact ⟨Nat.le_trans le (Nat.le_of_lt below), List.subset_cons_of_subset _ sub⟩

theorem alive_iff {owners : List FrameId} : s.alive owners f = true ↔ ∃ o ∈ owners,
      f ∈ s.chain o := by
  simp only [alive, List.any_eq_true, List.contains_iff_mem]

/-- What is bound below an alive frame is known. -/
theorem Knows.of_alive {owners : List FrameId} {μ : Mark} (alive : s.alive owners f = true)
    (h : s.Knows [f] μ) : s.Knows owners μ := by
  obtain ⟨o, owns, mem⟩ := alive_iff.mp alive
  obtain ⟨_, only, g, above, marked⟩ := h
  cases List.mem_singleton.mp only
  exact ⟨o, owns, g, (chain_subset mem).2 above, marked⟩

/-- A meaning of a name is bound in the chain. -/
theorem Knows.of_get? {name : String} {v : Value} {μ : Mark} (h : s.get? f name = some v)
    (mem : μ ∈ v.marks) : s.Knows [f] μ := by
  obtain ⟨g, above, found⟩ := List.exists_of_findSome?_eq_some h
  obtain ⟨before, after, bindings, -⟩ := List.lookup_eq_some_iff.mp found
  have among : v ∈ (s.bindings g).map (·.2) := by
    rw [bindings, List.map_append]
    exact List.mem_append_right _ List.mem_cons_self
  exact ⟨f, List.mem_singleton_self f, g, above, Value.marks_subset among mem⟩

end Store

/-! ## What is shared with others -/

namespace Common

/-- A mark that others may put where `c` has become `d`: one that they know, a function made in a
frame that is alive or new, or the number of an instance that exists by then. -/
inductive Offers (c d : Common σ) : Mark → Prop
  | known {μ : Mark} : c.store.Knows c.held μ → Offers c d μ
  | watched {f : FrameId} : f ∈ c.watched → Offers c d (.home f)
  | alive {f : FrameId} : c.store.alive c.held f = true → Offers c d (.home f)
  | new {f : FrameId} : c.store.frames.size ≤ f → Offers c d (.home f)
  | serial {n : Nat} : n < d.serial → Offers c d (.serial n)

/-- What others may do: frames stay, new ones stand below frames that are alive or new, and what is
bound is what was bound there or what others may put there. -/
structure Leads (c d : Common σ) : Prop where
  grows : c.store.Extends d.store
  serial : c.serial ≤ d.serial
  parent : ∀ f p, c.store.frames.size ≤ f → d.store.parent? f = some p →
    c.store.alive c.held p = true ∨ c.store.frames.size ≤ p
  marked : ∀ f, ∀ μ ∈ d.store.marked f, μ ∈ c.store.marked f ∨ c.Offers d μ

end Common

namespace Machine

variable (m : Machine σ)

/-- Everything that is shared, as the others see it. -/
def whole : Common σ := m.common.suspend m.session

/-- The handles besides those of the captured frames. -/
def roots : List FrameId := m.session.ambient :: m.session.running ++ m.common.held

/-- Whether a frame is alive without the captured frames. -/
def Lives (f : FrameId) : Prop := m.common.store.alive m.roots f = true

/-- A mark of what is on the stack or bound in a frame that is alive. -/
def Knows (μ : Mark) : Prop :=
  μ ∈ Value.marksAll m.session.stack ∨ m.common.store.Knows m.owners μ

/-- A mark that a run can get when it has some in hand: one that is known, one of the body of a
function in hand, or the number of an instance. -/
inductive Learns (hand : List Mark) : Mark → Prop
  | kept {μ : Mark} : μ ∈ hand → Learns hand μ
  | known {μ : Mark} : m.Knows μ → Learns hand μ
  | opened {f : FrameId} : .inner f ∈ hand → Learns hand (.home f)
  | serial {n : Nat} : n < m.common.serial → Learns hand (.serial n)

/-- The frame around the body of a function that is called. -/
def around (home : Option FrameId) (scope : FrameId) : FrameId :=
  match home with
  | none => scope
  | some f => if m.alive f then f else scope

/-- The machine with a new frame. -/
def framed (parent : FrameId) (bindings : List (String × Value)) : Machine σ :=
  { m with common := { m.common with
    store := (m.common.store.alloc (some parent)).1.setAll m.common.store.frames.size bindings } }

/-- The machine after others have changed what is shared. -/
def changed (d : Common σ) : Machine σ :=
  { m with common := { d with held := m.common.held, watched := m.common.watched } }

/-- All handles are handles on frames. -/
def IsSound : Prop := ∀ f ∈ m.owners, f < m.common.store.frames.size

/-- A mark that the machine may have made.  Functions get their homes when they are made by running
a literal, so a literal in the body of a function has none. -/
def Made : Mark → Prop
  | .home _ => True
  | .inner _ => False
  | .serial n => n < m.common.serial

/-- The machine has made all the marks on its stack and in its frames. -/
structure IsMade : Prop where
  stack : ∀ μ ∈ Value.marksAll m.session.stack, m.Made μ
  bound : ∀ f, ∀ μ ∈ m.common.store.marked f, m.Made μ

end Machine

/-! ## Moves -/

/-- What happens to functions. -/
inductive Event where
  /-- a function was made in the frame -/
  | made (home : FrameId)
  /-- a function with the given home was called: its body got a new frame, below the frame
  `around` -/
  | called (home : Option FrameId) (around frame : FrameId)
  deriving DecidableEq

/-- A machine, the marks that a run on it has in hand, and what has happened so far. -/
structure Moment (σ : Type) where
  machine : Machine σ
  hand : List Mark
  log : List Event

/-- One move.  Names are bound only in the frames that may be written. -/
inductive Move (writable : FrameId → Prop) : Moment σ → Moment σ → Prop
  | learn {m : Machine σ} {hand hand' : List Mark} {log : List Event} :
      (∀ μ ∈ hand', m.Learns hand μ) → Move writable ⟨m, hand, log⟩ ⟨m, hand', log⟩
  | stack {m : Machine σ} {hand : List Mark} {log : List Event} {stack : List Value} :
      (∀ μ ∈ Value.marksAll stack, m.Learns hand μ) →
      Move writable ⟨m, hand, log⟩ ⟨m.withStack stack, hand, log⟩
  | bind {m : Machine σ} {hand : List Mark} {log : List Event} {f : FrameId} {name : String}
      {v : Value} :
      writable f → (∀ μ ∈ v.marks, m.Learns hand μ) →
      Move writable ⟨m, hand, log⟩ ⟨m.bind f name v, hand, log⟩
  /-- a function is called, and its body is run if that may still nest -/
  | call {m m' : Machine σ} {hand : List Mark} {log : List Event} {home : Option FrameId}
      {scope : FrameId} {bindings : List (String × Value)} :
      m.Lives scope → (∀ f, home = some f → .home f ∈ hand) →
      (∀ b ∈ bindings, ∀ μ ∈ b.2.marks, m.Learns hand μ) →
      m' = m.framed (m.around home scope) bindings ∨
        m' = (m.framed (m.around home scope) bindings).enter.hold m.common.store.frames.size →
      Move writable ⟨m, hand, log⟩
        ⟨m', hand, log ++ [.called home (m.around home scope) m.common.store.frames.size]⟩
  /-- a frame that is alive is kept -/
  | hold {m : Machine σ} {hand : List Mark} {log : List Event} {f : FrameId} :
      m.alive f = true → Move writable ⟨m, hand, log⟩ ⟨m.hold f, hand, log⟩
  /-- invocations begin or end, and their frames are not kept any more -/
  | count {m : Machine σ} {hand : List Mark} {log : List Event} {running : List FrameId}
      {depth : Nat} :
      running ⊆ m.session.running →
      Move writable ⟨m, hand, log⟩
        ⟨{ m with session := { m.session with running := running, depth := depth } }, hand, log⟩
  /-- a function is made, while no function is in hand -/
  | capture {m : Machine σ} {hand : List Mark} {log : List Event} {f : FrameId} :
      m.Lives f → (∀ g, .home g ∉ hand) →
      Move writable ⟨m, hand, log⟩ ⟨m.capture f, .home f :: hand, log ++ [.made f]⟩
  /-- a number is used up -/
  | number {m : Machine σ} {hand : List Mark} {log : List Event} :
      Move writable ⟨m, hand, log⟩ ⟨m.numbered (m.common.serial + 1), hand, log⟩
  | print {m : Machine σ} {hand : List Mark} {log : List Event} {lines : List String} :
      Move writable ⟨m, hand, log⟩
        ⟨{ m with common := { m.common with printed := lines } }, hand, log⟩
  /-- others change what is shared -/
  | change {m : Machine σ} {hand : List Mark} {log : List Event} {d : Common σ} :
      m.whole.Leads d →
      (∀ f < m.common.store.frames.size, ¬ writable f →
        d.store.bindings f = m.common.store.bindings f) →
      Move writable ⟨m, hand, log⟩ ⟨m.changed d, hand, log⟩

/-- One move after another. -/
abbrev Moves (writable : FrameId → Prop) : Moment σ → Moment σ → Prop :=
  Relation.ReflTransGen (Move writable)

/-! ## What every move keeps -/

namespace Store

variable {s t : Store} {f g p : FrameId} {μ : Mark}

theorem size_setAll (s : Store) (f : FrameId) (bindings : List (String × Value)) :
    (s.setAll f bindings).frames.size = s.frames.size := by
  induction bindings generalizing s with
  | nil => rfl
  | cons b rest ih => exact (ih (s.set f b.1 b.2)).trans (size_set b.2)

theorem parent?_setAll (s : Store) (f g : FrameId) (bindings : List (String × Value)) :
    (s.setAll f bindings).parent? g = s.parent? g := by
  induction bindings generalizing s with
  | nil => rfl
  | cons b rest ih => exact (ih (s.set f b.1 b.2)).trans (parent?_set b.2)

theorem frames_setAll_of_ne (s : Store) {f g : FrameId} (ne : g ≠ f)
    (bindings : List (String × Value)) : (s.setAll f bindings).frames[g]? = s.frames[g]? := by
  induction bindings generalizing s with
  | nil => rfl
  | cons b rest ih => exact (ih (s.set f b.1 b.2)).trans (frames_set_of_ne b.2 ne)

theorem extends_set (s : Store) (f : FrameId) (name : String) (v : Value) :
    s.Extends (s.set f name v) :=
  ⟨Nat.le_of_eq (size_set v).symm, fun _ _ => parent?_set v⟩

theorem bindings_of_le (large : s.frames.size ≤ f) : s.bindings f = [] := by
  rw [bindings, Array.getElem?_eq_none large]
  rfl

theorem marked_of_le (large : s.frames.size ≤ f) : s.marked f = [] := by
  rw [marked, bindings_of_le large]
  rfl

/-- Binding a value adds no marks but its own. -/
theorem marked_set {name : String} {v : Value} (h : μ ∈ (s.set f name v).marked g) :
    μ ∈ s.marked g ∨ μ ∈ v.marks := by
  by_cases there : g = f ∧ f < s.frames.size
  · obtain ⟨rfl, lt⟩ := there
    rw [marked, bindings_set v lt] at h
    obtain ⟨w, among, mem⟩ := Value.mem_marksAll.mp h
    obtain ⟨b, put, rfl⟩ := List.mem_map.mp among
    rcases List.mem_cons.mp put with rfl | kept
    · exact .inr mem
    · have bound : b ∈ s.bindings g := (List.mem_filter.mp kept).1
      exact .inl (Value.marks_subset (List.mem_map_of_mem bound) mem)
  · have same : (s.set f name v).bindings g = s.bindings g := by
      by_cases ne : g = f
      · subst ne
        have large : s.frames.size ≤ g := Nat.le_of_not_lt fun lt => there ⟨rfl, lt⟩
        rw [bindings_of_le large, bindings_of_le (Nat.le_trans (Nat.le_of_eq (size_set v)) large)]
      · exact bindings_congr (frames_set_of_ne v ne)
    rw [marked, same] at h
    exact .inl h

theorem marked_setAll {bindings : List (String × Value)} (h : μ ∈ (s.setAll f bindings).marked g) :
    μ ∈ s.marked g ∨ ∃ b ∈ bindings, μ ∈ b.2.marks := by
  induction bindings generalizing s with
  | nil => exact .inl h
  | cons b rest ih =>
      rcases ih h with before | ⟨c, among, mem⟩
      · refine (marked_set before).imp_right fun mem => ⟨b, List.mem_cons_self, mem⟩
      · exact .inr ⟨c, List.mem_cons_of_mem _ among, mem⟩

theorem marked_alloc (parent : Option FrameId) (f : FrameId) :
    (s.alloc parent).1.marked f = s.marked f := by
  by_cases lt : f < s.frames.size
  · rw [marked, marked, bindings_congr (frames_alloc_of_lt parent lt)]
  · by_cases new : f = s.frames.size
    · subst new
      rw [marked, bindings_alloc, marked_of_le (Nat.le_refl _)]
      rfl
    · rw [marked_of_le (Nat.le_of_not_lt lt), marked_of_le]
      rw [size_alloc]
      exact Nat.lt_of_le_of_ne (Nat.le_of_not_lt lt) (Ne.symm new)

end Store

namespace Machine

variable {m : Machine σ} {f g : FrameId} {μ : Mark}

theorem size_framed (m : Machine σ) (parent : FrameId) (bindings : List (String × Value)) :
    (m.framed parent bindings).common.store.frames.size = m.common.store.frames.size + 1 :=
  (Store.size_setAll _ _ _).trans (Store.size_alloc _)

theorem parent?_framed (m : Machine σ) (parent : FrameId) (bindings : List (String × Value)) :
    (m.framed parent bindings).common.store.parent? m.common.store.frames.size = some parent :=
  (Store.parent?_setAll _ _ _ _).trans (Store.parent?_alloc _)

theorem extends_framed (m : Machine σ) (parent : FrameId)
    (bindings : List (String × Value)) :
    m.common.store.Extends (m.framed parent bindings).common.store := by
  refine ⟨Nat.le_of_lt (Nat.lt_of_lt_of_eq (Nat.lt_succ_self _) (m.size_framed _ _).symm), ?_⟩
  intro f lt
  exact (Store.parent?_setAll _ _ _ _).trans
    (Store.parent?_congr (Store.frames_alloc_of_lt (some parent) lt))

theorem roots_subset (m : Machine σ) : m.roots ⊆ m.owners := by
  intro o mem
  rw [owners, Session.handles, List.append_assoc]
  exact List.mem_append_right _ mem

theorem Lives.alive (h : m.Lives f) : m.alive f = true := by
  obtain ⟨o, roots, mem⟩ := Store.alive_iff.mp h
  exact Store.alive_iff.mpr ⟨o, m.roots_subset roots, mem⟩

theorem alive_of_mem (h : f ∈ m.owners) : m.alive f = true :=
  Store.alive_iff.mpr ⟨f, h, Store.mem_chain_self _ _⟩

theorem alive_of_chain (alive : m.alive f = true) (h : g ∈ m.common.store.chain f) :
    m.alive g = true := by
  obtain ⟨o, owns, mem⟩ := Store.alive_iff.mp alive
  exact Store.alive_iff.mpr ⟨o, owns, (Store.chain_subset mem).2 h⟩

theorem alive_ambient (m : Machine σ) : m.alive m.session.ambient = true :=
  alive_of_mem (m.roots_subset (List.mem_append_left _ List.mem_cons_self))

theorem IsSound.lt_of_alive (h : m.IsSound) (alive : m.alive f = true) :
    f < m.common.store.frames.size := by
  obtain ⟨o, owns, mem⟩ := Store.alive_iff.mp alive
  exact Nat.lt_of_le_of_lt (Store.chain_subset mem).1 (h o owns)

/-- What is bound in a frame that is alive is known. -/
theorem known_of_marked (alive : m.alive f = true) (h : μ ∈ m.common.store.marked f) :
    m.Knows μ := by
  obtain ⟨o, owns, mem⟩ := Store.alive_iff.mp alive
  exact .inr ⟨o, owns, f, mem, h⟩

theorem alive_around {home : Option FrameId} {scope : FrameId} (alive : m.alive scope = true) :
    m.alive (m.around home scope) = true := by
  unfold around
  split
  · exact alive
  · split
    · assumption
    · exact alive

theorem used_subset (m : Machine σ) (kept fs : List FrameId) : m.used kept fs ⊆ kept ++ fs := by
  induction fs generalizing kept with
  | nil => exact List.subset_append_left _ _
  | cons f fs ih =>
      rw [used]
      refine List.Subset.trans (ih _) ?_
      split
      · rw [List.append_assoc]
        exact List.Subset.refl _
      · exact List.append_subset.mpr ⟨List.subset_append_left _ _,
          List.subset_append_of_subset_right _ (List.subset_cons_self _ _)⟩

/-- A capture changes nothing but the captured frames, and adds one of these at most. -/
theorem capture_cases (m : Machine σ) (f : FrameId) :
    (f ∈ m.session.captured ∧ m.capture f = m) ∨
      ∃ captured sweepAt, captured ⊆ m.session.captured ++ [f] ∧
        m.capture f =
          { m with session := { m.session with captured := captured, sweepAt := sweepAt } } := by
  unfold capture
  split
  · exact .inl ⟨‹_›, rfl⟩
  · refine .inr ?_
    dsimp only
    split
    · exact ⟨_, _, used_subset _ [] _, rfl⟩
    · exact ⟨_, _, List.Subset.refl _, rfl⟩

theorem common_capture (m : Machine σ) (f : FrameId) : (m.capture f).common = m.common := by
  rcases m.capture_cases f with ⟨-, same⟩ | ⟨_, _, -, same⟩ <;> rw [same]

theorem stack_capture (m : Machine σ) (f : FrameId) :
    (m.capture f).session.stack = m.session.stack := by
  rcases m.capture_cases f with ⟨-, same⟩ | ⟨_, _, -, same⟩ <;> rw [same]

theorem roots_capture (m : Machine σ) (f : FrameId) : (m.capture f).roots = m.roots := by
  rcases m.capture_cases f with ⟨-, same⟩ | ⟨_, _, -, same⟩
  · rw [same]
  · rw [same]
    rfl

theorem owners_capture (m : Machine σ) (f : FrameId) : (m.capture f).owners ⊆ f :: m.owners := by
  rcases m.capture_cases f with ⟨-, same⟩ | ⟨captured, _, sub, same⟩
  · rw [same]
    exact List.subset_cons_self _ _
  · rw [same]
    intro o owns
    simp only [owners, Session.handles, List.mem_append, List.mem_cons] at owns ⊢
    have := @sub o
    simp only [List.mem_append, List.mem_singleton] at this
    tauto

end Machine

namespace Moment

/-- A run has the mark in hand or its machine knows it. -/
def Has (x : Moment σ) (μ : Mark) : Prop := μ ∈ x.hand ∨ x.machine.Knows μ

/-- All handles are handles on frames, and all marks have been made. -/
structure IsSound (x : Moment σ) : Prop where
  owned : x.machine.IsSound
  made : x.machine.IsMade
  hand : ∀ μ ∈ x.hand, x.machine.Made μ

theorem IsSound.has {x : Moment σ} (sound : x.IsSound) {μ : Mark} (has : x.Has μ) :
    x.machine.Made μ := by
  rcases has with hand | stack | ⟨_, _, f, _, marked⟩
  · exact sound.hand μ hand
  · exact sound.made.stack μ stack
  · exact sound.made.bound f μ marked

/-- A mark that a run may get by a move without having had it: the home of a function that is made,
or that others have or make, or the number of an instance. -/
inductive Gains (x y : Moment σ) : Mark → Prop
  | alive {f : FrameId} : x.machine.alive f = true → Gains x y (.home f)
  | new {f : FrameId} : x.machine.common.store.frames.size ≤ f → Gains x y (.home f)
  | watched {f : FrameId} : f ∈ x.machine.common.watched → Gains x y (.home f)
  | serial {n : Nat} : n < y.machine.common.serial → Gains x y (.serial n)

end Moment

namespace Move

variable {writable : FrameId → Prop} {x y : Moment σ} {μ : Mark}

theorem grows (h : Move writable x y) : x.machine.common.store.Extends y.machine.common.store := by
  cases h with
  | bind => exact Store.extends_set _ _ _ _
  | @call m m' _ _ home scope bindings _ _ _ same =>
      rcases same with rfl | rfl <;> exact m.extends_framed _ bindings
  | @capture m _ _ f =>
      change m.common.store.Extends (m.capture f).common.store
      rw [m.common_capture f]
      exact .refl _
  | change leads _ => exact leads.grows
  | _ => exact .refl _

theorem serial_le (h : Move writable x y) : x.machine.common.serial ≤ y.machine.common.serial := by
  cases h with
  | @call m m' _ _ home scope bindings _ _ _ same =>
      rcases same with rfl | rfl <;> exact Nat.le_refl _
  | @capture m _ _ f =>
      change m.common.serial ≤ (m.capture f).common.serial
      exact Nat.le_of_eq (congrArg Common.serial (m.common_capture f).symm)
  | number => exact Nat.le_succ _
  | change leads _ => exact leads.serial
  | _ => exact Nat.le_refl _

theorem registry (h : Move writable x y) :
    y.machine.session.registry = x.machine.session.registry := by
  cases h with
  | @call m m' _ _ home scope bindings _ _ _ same => rcases same with rfl | rfl <;> rfl
  | @capture m _ _ f =>
      change (m.capture f).session.registry = m.session.registry
      rcases m.capture_cases f with ⟨-, same⟩ | ⟨_, _, -, same⟩ <;> rw [same]
  | _ => rfl

/-- A handle is new only on a frame that is alive, or that has just been made below such a frame. -/
theorem owners (h : Move writable x y) :
    ∀ o ∈ y.machine.owners, x.machine.alive o = true ∨
      (o = x.machine.common.store.frames.size ∧ o < y.machine.common.store.frames.size ∧
        ∃ p, x.machine.alive p = true ∧ y.machine.common.store.parent? o = some p) := by
  cases h with
  | @call m m' _ _ home scope bindings lives _ _ same =>
      have old : ∀ o ∈ m.owners, m.alive o = true := fun o => Machine.alive_of_mem
      rcases same with rfl | rfl
      · exact fun o owns => .inl (old o owns)
      · intro o owns
        simp only [Machine.owners, Session.handles, Machine.hold, Machine.enter, List.mem_append,
          List.mem_cons] at owns
        by_cases new : o = m.common.store.frames.size
        · subst new
          exact .inr ⟨rfl, Nat.lt_of_lt_of_eq (Nat.lt_succ_self _) (m.size_framed _ bindings).symm,
            _, Machine.alive_around lives.alive, m.parent?_framed _ _⟩
        · refine .inl (old o ?_)
          simp only [Machine.owners, Session.handles, List.mem_append, List.mem_cons]
          exact owns.imp_left fun own => own.imp_right fun own => own.imp_right fun own =>
            own.resolve_left new
  | @hold m _ _ f alive =>
      intro o owns
      simp only [Machine.owners, Session.handles, Machine.hold, List.mem_append,
        List.mem_cons] at owns
      by_cases new : o = f
      · subst new
        exact .inl alive
      · refine .inl (Machine.alive_of_mem ?_)
        simp only [Machine.owners, Session.handles, List.mem_append, List.mem_cons]
        exact owns.imp_left fun own => own.imp_right fun own => own.imp_right fun own =>
          own.resolve_left new
  | @count m _ _ running depth fewer =>
      intro o owns
      refine .inl (Machine.alive_of_mem ?_)
      simp only [Machine.owners, Session.handles, List.mem_append, List.mem_cons] at owns ⊢
      exact owns.imp_left fun own => own.imp_right fun own => own.imp_right fun own => fewer own
  | @capture m _ _ f lives =>
      intro o owns
      rcases List.mem_cons.mp (m.owners_capture f owns) with rfl | owns
      · exact .inl lives.alive
      · exact .inl (Machine.alive_of_mem owns)
  | _ => exact fun o owns => .inl (Machine.alive_of_mem owns)

theorem owned (h : Move writable x y) (owned : x.machine.IsSound) : y.machine.IsSound := by
  intro o owns
  rcases h.owners o owns with alive | ⟨-, lt, -⟩
  · exact Nat.lt_of_lt_of_le (owned.lt_of_alive alive) h.grows.size
  · exact lt

/-- A frame that is not alive stays so. -/
theorem alive (h : Move writable x y) (owned : x.machine.IsSound) {f : FrameId}
    (alive : y.machine.alive f = true) :
    x.machine.alive f = true ∨ x.machine.common.store.frames.size ≤ f := by
  have below : ∀ o, x.machine.alive o = true → f ∈ y.machine.common.store.chain o →
      x.machine.alive f = true := fun o alive mem =>
    Machine.alive_of_chain alive (h.grows.chain_eq (owned.lt_of_alive alive) ▸ mem)
  obtain ⟨o, owns, mem⟩ := Store.alive_iff.mp alive
  rcases h.owners o owns with alive | ⟨rfl, -, p, alive, parent⟩
  · exact .inl (below o alive mem)
  · rcases Store.chain_cases y.machine.common.store _ with same | ⟨q, parent', -, same⟩
    · rw [same, List.mem_singleton] at mem
      exact .inr (Nat.le_of_eq mem.symm)
    · rw [same] at mem
      cases parent.symm.trans parent'
      rcases List.mem_cons.mp mem with rfl | mem
      · exact .inr (Nat.le_refl _)
      · exact .inl (below p alive mem)

theorem learns (sound : x.IsSound) (h : x.machine.Learns x.hand μ)
    (le : x.machine.common.serial ≤ y.machine.common.serial) : x.Has μ ∨ x.Gains y μ := by
  cases h with
  | kept mem => exact .inl (.inl mem)
  | known known => exact .inl (.inr known)
  | opened mem => exact absurd (sound.hand _ mem) id
  | serial lt => exact .inr (.serial (Nat.lt_of_lt_of_le lt le))

theorem offers {d : Common σ} (sound : x.IsSound) (h : x.machine.whole.Offers d μ)
    (le : d.serial ≤ y.machine.common.serial) : x.Has μ ∨ x.Gains y μ := by
  cases h with
  | known known => exact .inl (.inr (.inr known))
  | alive alive => exact .inr (.alive alive)
  | new large => exact .inr (.new large)
  | serial lt => exact .inr (.serial (Nat.lt_of_lt_of_le lt le))
  | watched mem =>
      rcases List.mem_append.mp mem with own | others
      · rcases Value.mem_homesAll.mp own with home | inner
        · exact .inl (.inr (.inl home))
        · exact absurd (sound.made.stack _ inner) id
      · exact .inr (.watched others)

/-- A frame that may not be written binds what it has bound. -/
theorem unwritten (h : Move writable x y) {f : FrameId}
    (lt : f < x.machine.common.store.frames.size) (no : ¬ writable f) :
    y.machine.common.store.bindings f = x.machine.common.store.bindings f := by
  cases h with
  | @bind m _ _ g _ v writes _ =>
      have ne : f ≠ g := fun same => no (same ▸ writes)
      exact Store.bindings_congr (Store.frames_set_of_ne v ne)
  | @call m m' _ _ home scope bindings _ _ _ same =>
      have framed : (m.framed (m.around home scope) bindings).common.store.bindings f =
          m.common.store.bindings f := Store.bindings_congr <|
        (Store.frames_setAll_of_ne _ (Nat.ne_of_lt lt) bindings).trans
          (Store.frames_alloc_of_lt _ lt)
      rcases same with rfl | rfl <;> exact framed
  | @capture m _ _ g =>
      change (m.capture g).common.store.bindings f = m.common.store.bindings f
      rw [m.common_capture g]
  | change _ kept => exact kept f lt no
  | _ => rfl

/-- What is bound in a frame after a move. -/
theorem marked (h : Move writable x y) (sound : x.IsSound) {f : FrameId}
    (mem : μ ∈ y.machine.common.store.marked f) :
    μ ∈ x.machine.common.store.marked f ∨ x.Has μ ∨ x.Gains y μ := by
  have le := h.serial_le
  cases h with
  | bind _ learnt =>
      exact (Store.marked_set mem).imp_right fun mem => learns sound (learnt μ mem) le
  | @call m m' _ _ home scope bindings _ _ learnt same =>
      have framed : μ ∈ (m.framed (m.around home scope) bindings).common.store.marked f := by
        rcases same with rfl | rfl <;> exact mem
      rcases Store.marked_setAll framed with before | ⟨b, among, mem⟩
      · exact .inl (Store.marked_alloc _ f ▸ before)
      · exact .inr (learns sound (learnt b among μ mem) le)
  | @capture m _ _ f =>
      change μ ∈ (m.capture f).common.store.marked _ at mem
      rw [m.common_capture f] at mem
      exact .inl mem
  | change leads _ =>
      refine (leads.marked f μ mem).imp_right fun offered => ?_
      exact offers sound offered (Nat.le_refl _)
  | _ => exact .inl mem

/-- A run has after a move what it had, or it is something new. -/
theorem has (h : Move writable x y) (sound : x.IsSound) (has : y.Has μ) :
    x.Has μ ∨ x.Gains y μ := by
  have le := h.serial_le
  have bound : y.machine.common.store.Knows y.machine.owners μ → x.Has μ ∨ x.Gains y μ := by
    rintro ⟨o, owns, f, mem, marked⟩
    have alive := h.alive sound.owned (Store.alive_iff.mpr ⟨o, owns, mem⟩)
    rcases h.marked sound marked with before | learnt
    · rcases alive with alive | large
      · exact .inl (.inr (Machine.known_of_marked alive before))
      · rw [Store.marked_of_le large] at before
        exact nomatch before
    · exact learnt
  rcases has with hand | stack | known
  · cases h with
    | learn learnt => exact learns sound (learnt μ hand) le
    | capture lives none =>
        rcases List.mem_cons.mp hand with rfl | hand
        · exact .inr (.alive lives.alive)
        · exact .inl (.inl hand)
    | _ => exact .inl (.inl hand)
  · cases h with
    | stack learnt => exact learns sound (learnt μ stack) le
    | @call m m' _ _ home scope bindings _ _ _ same =>
        rcases same with rfl | rfl <;> exact .inl (.inr (.inl stack))
    | @capture m _ _ f =>
        change μ ∈ Value.marksAll (m.capture f).session.stack at stack
        rw [m.stack_capture f] at stack
        exact .inl (.inr (.inl stack))
    | _ => exact .inl (.inr (.inl stack))
  · exact bound known

theorem made (h : Move writable x y) (old : x.machine.Made μ ∨ x.Gains y μ) : y.machine.Made μ := by
  rcases old with made | gains
  · cases μ with
    | home => trivial
    | inner => exact made
    | serial => exact Nat.lt_of_lt_of_le made h.serial_le
  · cases gains with
    | serial lt => exact lt
    | _ => trivial

theorem sound (h : Move writable x y) (sound : x.IsSound) : y.IsSound where
  owned := h.owned sound.owned
  made := {
    stack := fun _ mem => h.made ((h.has sound (.inr (.inl mem))).imp_left sound.has)
    bound := fun f μ mem => by
      rcases h.marked sound mem with before | learnt
      · exact h.made (.inl (sound.made.bound f μ before))
      · exact h.made (learnt.imp_left sound.has) }
  hand _ mem := h.made ((h.has sound (.inl mem)).imp_left sound.has)

end Move

namespace Moves

variable {writable : FrameId → Prop} {x y : Moment σ}

theorem grows (h : Moves writable x y) :
    x.machine.common.store.Extends y.machine.common.store := by
  induction h with
  | refl => exact .refl _
  | tail _ move ih => exact ih.trans move.grows

theorem serial_le (h : Moves writable x y) :
    x.machine.common.serial ≤ y.machine.common.serial := by
  induction h with
  | refl => exact Nat.le_refl _
  | tail _ move ih => exact Nat.le_trans ih move.serial_le

theorem registry (h : Moves writable x y) :
    y.machine.session.registry = x.machine.session.registry := by
  induction h with
  | refl => rfl
  | tail _ move ih => exact move.registry.trans ih

theorem unwritten (h : Moves writable x y) {f : FrameId}
    (lt : f < x.machine.common.store.frames.size) (no : ¬ writable f) :
    y.machine.common.store.bindings f = x.machine.common.store.bindings f := by
  induction h with
  | refl => rfl
  | tail moves move ih =>
      exact (move.unwritten (Nat.lt_of_lt_of_le lt (Moves.grows moves).size) no).trans ih

theorem sound (h : Moves writable x y) (sound : x.IsSound) : y.IsSound := by
  induction h with
  | refl => exact sound
  | tail _ move ih => exact move.sound ih

end Moves

end PeerScript
