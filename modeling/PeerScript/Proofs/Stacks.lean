import PeerScript.Proofs.Contents
import PeerScript.Proofs.Twins

/-!
# Two machines over different stacks

Machines that differ in nothing but what lies on their stacks and in what they have captured are
`Abreast` when they have the same values above what lies below.  Each step that does not look down
keeps this, though the machines may sweep their captured frames at different times and with
different results, because a function that lies below is a reason to keep its home.

What makes this harmless is `Settled`: the home of every function that both machines can get at is
captured by both, or is alive by a handle that stays, or is dead for both.  So both find the same
frame around its body.
-/

set_option autoImplicit false

namespace PeerScript

variable {σ α β : Type}

/-- Everything but the builtins that look at the stack and the objects. -/
def Kit.level : Kit where
  native b := b.looksDown = false
  object _ := False
  path _ := True
  call _ := True

/-- The same without the paths that name nothing. -/
def Kit.flat : Kit := { Kit.level with path := fun path => path.segments ≠ [] }

/-! ## What stays -/

/-- Where two machines run, the handles that others hold, and some of all these handles. -/
structure Stand where
  place : Place
  held : List FrameId
  anchors : List FrameId
  anchored : anchors ⊆ place.ambient :: place.running ++ held

namespace Stand

/-- The handles besides those of the captured frames. -/
def roots (stand : Stand) : List FrameId := stand.place.ambient :: stand.place.running ++ stand.held

/-- The same inside of one more invocation, which has the given frame. -/
def inFrame (stand : Stand) (frame : FrameId) : Stand where
  place := stand.place.inFrame frame
  held := stand.held
  anchors := stand.anchors
  anchored f mem := by
    have before := stand.anchored mem
    simp only [Place.inFrame, List.mem_append, List.mem_cons] at before ⊢
    exact before.imp_left (Or.imp_right .inr)

theorem roots_inFrame (stand : Stand) (frame : FrameId) : frame ∈ (stand.inFrame frame).roots := by
  simp [roots, inFrame, Place.inFrame]

end Stand

/-! ## Homes of functions -/

/-- The home of a function, if it has one, is captured by both machines, alive by an anchor, or dead
for both. -/
def Settled (anchors : List FrameId) (m m' : Machine σ) (v : Value) : Prop :=
  ∀ params body f, v = .closure params body (some f) →
    (f ∈ m.session.captured ∧ f ∈ m'.session.captured) ∨
      m.common.store.alive anchors f = true ∨
      (f < m.common.store.frames.size ∧ m.alive f = false ∧ m'.alive f = false)

/-- A value that both machines can get at. -/
structure Suits (anchors : List FrameId) (m m' : Machine σ) (v : Value) : Prop where
  within : v.Within .flat
  settled : Settled anchors m m' v

/-- Two machines with the same values above what lies below, of which some are kept there, and with
nothing else between them but what they have captured. -/
structure Abreast (stand : Stand) (kept below below' : List Value) (m m' : Machine σ) : Prop where
  common : m'.common = m.common
  place : m.session.place = stand.place
  place' : m'.session.place = stand.place
  held : m.common.held = stand.held
  owned : m.IsSound
  owned' : m'.IsSound
  within : m.common.store.Within .flat
  stack : ∃ above, m.session.stack = above ++ kept ++ below ∧
    m'.session.stack = above ++ kept ++ below' ∧ ∀ v ∈ above ++ kept, Suits stand.anchors m m' v
  bound : ∀ f, m.alive f = true → m'.alive f = true → ∀ name v,
    m.common.store.local? f name = some v → Settled stand.anchors m m' v

/-- A machine in whose frames there is nothing but what is flat, and that finds the homes of the
functions in them in the same way whatever lies on its stack: they are captured, alive by handles
besides those of the captured frames, or dead. -/
structure Machine.IsFlat (m : Machine σ) : Prop where
  within : m.common.store.Within .flat
  sound : m.IsSound
  homes : ∀ f, m.alive f = true → ∀ name params body home,
    m.common.store.local? f name = some (.closure params body (some home)) →
    home ∈ m.session.captured ∨ m.Lives home ∨
      (home < m.common.store.frames.size ∧ m.alive home = false)

theorem settled_inert {anchors : List FrameId} {m m' : Machine σ} {v : Value}
    (inert : v.isInvocable = false) : Settled anchors m m' v := by
  rintro params body f rfl
  exact nomatch inert

theorem suits_data {anchors : List FrameId} {m m' : Machine σ} {v : Value} (data : v.IsData) :
    Suits anchors m m' v := ⟨data.within _, settled_inert data.inert⟩

/-- Everything may be done to both machines, for the same reasons. -/
abbrev Free : FrameId → Prop := fun _ => True

section Onwards

variable {stand : Stand} {kept below below' : List Value} {m m' n n' : Machine σ} {v : Value}

namespace Abreast

variable (h : Abreast stand kept below below' m m')

include h

theorem roots_eq : m.roots = stand.roots := by
  have same := h.place
  rw [Machine.roots, Stand.roots, ← h.held, ← same]
  rfl

theorem roots_eq' : m'.roots = stand.roots := by
  have same := h.place'
  rw [Machine.roots, Stand.roots, ← h.held, ← h.common, ← same]
  rfl

theorem lives {f : FrameId} (mem : f ∈ stand.roots) : m.Lives f :=
  Store.alive_iff.mpr ⟨f, h.roots_eq ▸ mem, Store.mem_chain_self _ _⟩

theorem lives' {f : FrameId} (mem : f ∈ stand.roots) : m'.Lives f :=
  Store.alive_iff.mpr ⟨f, h.roots_eq' ▸ mem, Store.mem_chain_self _ _⟩

theorem anchored : ∀ o ∈ stand.anchors, o < m.common.store.frames.size := fun o mem =>
  h.owned o (m.roots_subset (h.roots_eq ▸ stand.anchored mem))

/-- A home stays settled while both machines move on and keep what they have captured. -/
theorem settled {hand hand' more more' : List Mark} {log log' later later' : List Event}
    (move : Move Free ⟨m, hand, log⟩ ⟨n, more, later⟩)
    (move' : Move Free ⟨m', hand', log'⟩ ⟨n', more', later'⟩)
    (captured : m.session.captured ⊆ n.session.captured)
    (captured' : m'.session.captured ⊆ n'.session.captured)
    (settled : Settled stand.anchors m m' v) : Settled stand.anchors n n' v := by
  intro params body f same
  rcases settled params body f same with ⟨known, known'⟩ | anchor | ⟨lt, gone, gone'⟩
  · exact .inl ⟨captured known, captured' known'⟩
  · exact .inr (.inl ((move.grows.alive_iff h.anchored).mpr anchor))
  · refine .inr (.inr ⟨Nat.lt_of_lt_of_le lt move.grows.size, ?_, ?_⟩)
    · exact Bool.eq_false_iff.mpr fun alive => (move.alive h.owned alive).elim
        (Bool.eq_false_iff.mp gone) (Nat.not_le_of_lt lt)
    · refine Bool.eq_false_iff.mpr fun alive => (move'.alive h.owned' alive).elim
        (Bool.eq_false_iff.mp gone') (Nat.not_le_of_lt ?_)
      rw [h.common]
      exact lt

/-- What both machines know keeps its home when both go on in the same way. -/
theorem onwards {stand' : Stand} {hand hand' more more' : List Mark}
    {log log' later later' : List Event} (move : Move Free ⟨m, hand, log⟩ ⟨n, more, later⟩)
    (move' : Move Free ⟨m', hand', log'⟩ ⟨n', more', later'⟩)
    (captured : m.session.captured ⊆ n.session.captured)
    (captured' : m'.session.captured ⊆ n'.session.captured)
    (anchors : stand'.anchors = stand.anchors) (common : n'.common = n.common)
    (place : n.session.place = stand'.place) (place' : n'.session.place = stand'.place)
    (held : n.common.held = stand'.held) (within : n.common.store.Within .flat)
    (stack : ∃ above, n.session.stack = above ++ kept ++ below ∧
      n'.session.stack = above ++ kept ++ below' ∧ ∀ v ∈ above ++ kept, Suits stand.anchors m m' v)
    (bound : ∀ f name v, n.common.store.local? f name = some v →
      m.common.store.local? f name = some v ∨ Settled stand.anchors m m' v) :
    Abreast stand' kept below below' n n' where
  common := common
  place := place
  place' := place'
  held := held
  owned := move.owned h.owned
  owned' := move'.owned h.owned'
  within := within
  stack := by
    obtain ⟨above, left, right, suits⟩ := stack
    refine ⟨above, left, right, fun v mem => ?_⟩
    rw [anchors]
    exact ⟨(suits v mem).within, h.settled move move' captured captured' (suits v mem).settled⟩
  bound f alive alive' name v found := by
    rw [anchors]
    refine h.settled move move' captured captured' ?_
    rcases bound f name v found with before | settled
    · have lt := Store.lt_of_local? before
      have alive := (move.alive h.owned alive).resolve_right (Nat.not_le_of_lt lt)
      have lt' : f < m'.common.store.frames.size := by rwa [h.common]
      have alive' := (move'.alive h.owned' alive').resolve_right (Nat.not_le_of_lt lt')
      exact h.bound f alive alive' name v before
    · exact settled

/-! ## Steps -/

/-- Only the stacks change, above what lies below. -/
theorem restack {stack stack' : List Value} (above : List Value)
    (left : stack = above ++ kept ++ below) (right : stack' = above ++ kept ++ below')
    (suits : ∀ v ∈ above ++ kept, Suits stand.anchors m m' v) :
    Abreast stand kept below below' (m.withStack stack) (m'.withStack stack') where
  common := h.common
  place := h.place
  place' := h.place'
  held := h.held
  owned := h.owned
  owned' := h.owned'
  within := h.within
  stack := ⟨above, left, right, fun v mem => ⟨(suits v mem).within, (suits v mem).settled⟩⟩
  bound := h.bound

theorem pushAll {vs : List Value} (suits : ∀ v ∈ vs, Suits stand.anchors m m' v) :
    Abreast stand kept below below' (m.pushAll vs) (m'.pushAll vs) := by
  obtain ⟨above, left, right, known⟩ := h.stack
  refine h.restack (vs.reverse ++ above) ?_ ?_ ?_
  · rw [left]
    simp only [List.append_assoc]
  · rw [right]
    simp only [List.append_assoc]
  · intro v mem
    rw [List.append_assoc] at mem
    rcases List.mem_append.mp mem with mem | mem
    · exact suits v (List.mem_reverse.mp mem)
    · exact known v mem

theorem push (suits : Suits stand.anchors m m' v) :
    Abreast stand kept below below' (m.push v) (m'.push v) :=
  h.pushAll (List.forall_mem_singleton.mpr suits)

theorem bind (suits : Suits stand.anchors m m' v) (f : FrameId) (name : String) :
    Abreast stand kept below below' (m.bind f name v) (m'.bind f name v) := by
  have move : ∀ m : Machine σ, Move Free ⟨m, v.marks, []⟩ ⟨m.bind f name v, v.marks, []⟩ := fun _ =>
    .bind trivial fun _ mem => .kept mem
  refine h.onwards (move m) (move m') (List.Subset.refl _) (List.Subset.refl _) rfl ?_ h.place
    h.place' h.held (h.within.set f name suits.within) h.stack ?_
  · change { m'.common with store := m'.common.store.set f name v } = _
    rw [h.common]
    rfl
  · intro g other w found
    refine (Store.local?_of_set found).imp_right ?_
    rintro ⟨-, rfl⟩
    exact suits.settled

theorem numbered : Abreast stand kept below below' (m.numbered (m.common.serial + 1))
    (m'.numbered (m'.common.serial + 1)) := by
  have move : ∀ m : Machine σ, Move Free ⟨m, [], []⟩ ⟨m.numbered (m.common.serial + 1), [], []⟩ :=
    fun _ => .number
  refine h.onwards (move m) (move m') (List.Subset.refl _) (List.Subset.refl _) rfl ?_
    h.place h.place' h.held h.within h.stack fun _ _ _ => .inl
  exact congrArg (fun c : Common σ => { c with serial := c.serial + 1 }) h.common

/-- Something is printed. -/
theorem printed (lines : List String) : Abreast stand kept below below'
    { m with common := { m.common with printed := lines } }
    { m' with common := { m'.common with printed := lines } } := by
  have move : ∀ m : Machine σ, Move Free ⟨m, [], []⟩
      ⟨{ m with common := { m.common with printed := lines } }, [], []⟩ := fun _ => .print
  refine h.onwards (move m) (move m') (List.Subset.refl _) (List.Subset.refl _) rfl ?_
    h.place h.place' h.held h.within h.stack fun _ _ _ => .inl
  exact congrArg (fun c : Common σ => { c with printed := lines }) h.common

/-- A function is made.  The sweeps may differ, but neither forgets the home of a function that both
machines can get at. -/
theorem capture {scope : FrameId} (root : scope ∈ stand.roots) :
    Abreast stand kept below below' (m.capture scope) (m'.capture scope) ∧
      ∀ params body, Settled stand.anchors (m.capture scope) (m'.capture scope)
        (.closure params body (some scope)) := by
  have move : ∀ m : Machine σ, m.Lives scope →
      Move Free ⟨m, [], []⟩ ⟨m.capture scope, [.home scope], [.made scope]⟩ := fun m lives =>
    .capture lives nofun
  have left := move m (h.lives root)
  have right := move m' (h.lives' root)
  have common := m.common_capture scope
  have common' := m'.common_capture scope
  have dead : ∀ {f : FrameId}, f < m.common.store.frames.size → m.alive f = false →
      m'.alive f = false →
      (m.capture scope).alive f = false ∧ (m'.capture scope).alive f = false := by
    intro f lt gone gone'
    refine ⟨Bool.eq_false_iff.mpr fun alive => ?_, Bool.eq_false_iff.mpr fun alive => ?_⟩
    · exact (left.alive h.owned alive).elim (Bool.eq_false_iff.mp gone) (Nat.not_le_of_lt lt)
    · refine (right.alive h.owned' alive).elim (Bool.eq_false_iff.mp gone') (Nat.not_le_of_lt ?_)
      rwa [h.common]
  -- of a captured home the sweeps leave what is still known
  have still : ∀ {v : Value}, Settled stand.anchors m m' v →
      (∀ μ ∈ v.marks, (m.capture scope).Knows μ ∧ (m'.capture scope).Knows μ) →
      Settled stand.anchors (m.capture scope) (m'.capture scope) v := by
    intro v settled known params body f same
    have home : Mark.home f ∈ v.marks := by simp [same, Value.marks]
    rcases settled params body f same with ⟨mem, mem'⟩ | anchor | ⟨lt, gone, gone'⟩
    · exact .inl ⟨Machine.captured_of_knows mem (known _ home).1,
        Machine.captured_of_knows mem' (known _ home).2⟩
    · exact .inr (.inl (common ▸ anchor))
    · exact .inr (.inr ⟨common ▸ lt, dead lt gone gone'⟩)
  refine ⟨⟨?_, ?_, ?_, ?_, left.owned h.owned, right.owned h.owned', ?_, ?_, ?_⟩, ?_⟩
  · rw [common, common', h.common]
  · exact (m.place_capture scope).trans h.place
  · exact (m'.place_capture scope).trans h.place'
  · rw [common]
    exact h.held
  · rw [common]
    exact h.within
  · obtain ⟨above, stack, stack', suits⟩ := h.stack
    rw [← m.stack_capture scope] at stack
    rw [← m'.stack_capture scope] at stack'
    refine ⟨above, stack, stack',
      fun v mem => ⟨(suits v mem).within, still (suits v mem).settled ?_⟩⟩
    have among := List.mem_append_left below mem
    have among' := List.mem_append_left below' mem
    rw [← stack] at among
    rw [← stack'] at among'
    exact fun μ marked =>
      ⟨.inl (Value.marks_subset among marked), .inl (Value.marks_subset among' marked)⟩
  · intro f alive alive' name v found
    have found' : (m'.capture scope).common.store.local? f name = some v := by
      rwa [common', h.common, ← common]
    refine still ?_ fun μ marked =>
      ⟨Machine.known_of_marked alive (Store.marked_of_local? found marked),
      Machine.known_of_marked alive' (Store.marked_of_local? found' marked)⟩
    rw [common] at found
    have lt := Store.lt_of_local? found
    have lt' : f < m'.common.store.frames.size := by rwa [h.common]
    exact h.bound f ((left.alive h.owned alive).resolve_right (Nat.not_le_of_lt lt))
      ((right.alive h.owned' alive').resolve_right (Nat.not_le_of_lt lt')) name v found
  · intro params body _ _ _ same
    cases same
    exact .inl ⟨(h.lives root).captured, (h.lives' root).captured⟩

/-- What a name means in a root. -/
theorem get? {scope : FrameId} (root : scope ∈ stand.roots) {name : String}
    (found : m.common.store.get? scope name = some v) : Suits stand.anchors m m' v := by
  obtain ⟨g, above, found'⟩ := List.exists_of_findSome?_eq_some found
  refine ⟨h.within.get? found, h.bound g ?_ ?_ name v found'⟩
  · exact Machine.alive_of_chain (h.lives root).alive above
  · exact Machine.alive_of_chain (h.lives' root).alive (h.common ▸ above)

/-- The body of a function gets the same frame around it. -/
theorem around_eq (scope : FrameId) {params : List String} {body : Tree} {home : Option FrameId}
    (settled : Settled stand.anchors m m' (.closure params body home)) :
    m'.around home scope = m.around home scope := by
  cases home with
  | none => rfl
  | some f =>
      have found : ∀ {m : Machine σ}, m.alive f = true → m.around (some f) scope = f := fun alive =>
        if_pos alive
      have captured : ∀ {m : Machine σ}, f ∈ m.session.captured → m.alive f = true := fun mem =>
        Machine.alive_of_mem (List.mem_append_left _ (List.mem_append_left _ mem))
      rcases settled params body f rfl with ⟨mem, mem'⟩ | anchor | ⟨-, gone, gone'⟩
      · rw [found (captured mem), found (captured mem')]
      · obtain ⟨o, owns, mem⟩ := Store.alive_iff.mp anchor
        have root := stand.anchored owns
        rw [found (Machine.alive_of_chain (h.lives root).alive mem),
          found (Machine.alive_of_chain (h.lives' root).alive (h.common ▸ mem))]
      · exact (if_neg (Bool.eq_false_iff.mp gone')).trans (if_neg (Bool.eq_false_iff.mp gone)).symm

/-- A function is called: it gets a new frame, in which its body may run. -/
theorem called {scope : FrameId} (root : scope ∈ stand.roots) {home : Option FrameId}
    (same : m'.around home scope = m.around home scope) {bindings : List (String × Value)}
    (suits : ∀ b ∈ bindings, Suits stand.anchors m m' b.2) :
    Abreast stand kept below below' (m.framed (m.around home scope) bindings)
        (m'.framed (m.around home scope) bindings) ∧
      Abreast (stand.inFrame m.common.store.frames.size) kept below below'
        ((m.framed (m.around home scope) bindings).enter.hold m.common.store.frames.size)
        ((m'.framed (m.around home scope) bindings).enter.hold m.common.store.frames.size) := by
  let hand := home.toList.map Mark.home ++ Value.marksAll (bindings.map (·.2))
  have homes : ∀ f, home = some f → Mark.home f ∈ hand := by
    rintro f rfl
    exact List.mem_append_left _ (List.mem_singleton_self _)
  have marks : ∀ (m : Machine σ), ∀ b ∈ bindings, ∀ μ ∈ b.2.marks, m.Learns hand μ :=
    fun m b mem μ marked =>
    .kept (List.mem_append_right _ (Value.marks_subset (List.mem_map_of_mem mem) marked))
  have move : ∀ n, n = m.framed (m.around home scope) bindings ∨
      n = (m.framed (m.around home scope) bindings).enter.hold m.common.store.frames.size →
      Move Free ⟨m, hand, []⟩
        ⟨n, hand, [.called home (m.around home scope) m.common.store.frames.size]⟩ :=
    fun _ => .call (h.lives root) homes (marks m)
  have move' : ∀ n, n = m'.framed (m.around home scope) bindings ∨
      n = (m'.framed (m.around home scope) bindings).enter.hold m.common.store.frames.size →
      Move Free ⟨m', hand, []⟩
        ⟨n, hand, [.called home (m'.around home scope) m'.common.store.frames.size]⟩ := by
    intro n made
    refine .call (h.lives' root) homes (marks m') ?_
    rwa [same, h.common]
  have common : (m'.framed (m.around home scope) bindings).common =
      (m.framed (m.around home scope) bindings).common := by
    simp only [Machine.framed, h.common]
  have within : (m.framed (m.around home scope) bindings).common.store.Within .flat :=
    (h.within.alloc _).setAll _ fun b mem => (suits b mem).within
  have bound : ∀ f name v,
      (m.framed (m.around home scope) bindings).common.store.local? f name = some v →
      m.common.store.local? f name = some v ∨ Settled stand.anchors m m' v := by
    intro f name v found
    rcases Store.local?_of_setAll found with before | ⟨-, b, mem, rfl⟩
    · rw [Store.local?_alloc] at before
      exact .inl before
    · exact .inr (suits b mem).settled
  have entered : ∀ {n : Machine σ}, n.session.place = stand.place →
      (n.enter.hold m.common.store.frames.size).session.place =
        stand.place.inFrame m.common.store.frames.size := by
    intro n place
    rw [← place]
    rfl
  exact
    ⟨h.onwards (move _ (.inl rfl)) (move' _ (.inl rfl)) (List.Subset.refl _)
      (List.Subset.refl _) rfl common h.place h.place' h.held within h.stack bound,
    h.onwards (move _ (.inr rfl)) (move' _ (.inr rfl)) (List.Subset.refl _)
      (List.Subset.refl _) rfl common
      (entered h.place) (entered h.place') h.held within h.stack bound⟩

/-- What has been pushed above what is kept is taken off again, and nothing else. -/
theorem splitOff : ∃ vs, (∀ v ∈ vs, Suits stand.anchors m m' v) ∧
    Run.splitOff (kept ++ below).length m = .ok vs (m.withStack (kept ++ below)) ∧
    Run.splitOff (kept ++ below').length m' = .ok vs (m'.withStack (kept ++ below')) ∧
    Abreast stand kept below below' (m.withStack (kept ++ below))
      (m'.withStack (kept ++ below')) := by
  obtain ⟨above, stack, stack', suits⟩ := h.stack
  have takes : ∀ {m : Machine σ} {base : List Value}, m.session.stack = above ++ base →
      Run.splitOff base.length m = .ok above.reverse (m.withStack base) := by
    intro m base stack
    have length : m.session.stack.length = above.length + base.length := by
      rw [stack, List.length_append]
    rw [Run.splitOff_of_le (by omega), length, Nat.add_sub_cancel, stack, List.take_left,
      List.drop_left]
  rw [List.append_assoc] at stack stack'
  refine ⟨above.reverse, fun v mem => ?_, takes stack, takes stack', ?_⟩
  · exact suits v (List.mem_append_left _ (List.mem_reverse.mp mem))
  · exact h.restack [] rfl rfl fun v mem => suits v (List.mem_append_right _ mem)

/-- Everything above what lies below may be kept. -/
theorem raise : ∃ above, m.session.stack = above ++ kept ++ below ∧
    m'.session.stack = above ++ kept ++ below' ∧
    Abreast stand (above ++ kept) below below' m m' := by
  obtain ⟨above, stack, stack', suits⟩ := h.stack
  exact ⟨above, stack, stack', { h with stack := ⟨[], stack, stack', suits⟩ }⟩

end Abreast

/-- What was kept above something is above it. -/
theorem Abreast.lower {above : List Value} (h : Abreast stand (above ++ kept) below below' m m') :
    Abreast stand kept below below' m m' := by
  obtain ⟨more, stack, stack', suits⟩ := h.stack
  rw [← List.append_assoc] at stack stack' suits
  exact { h with stack := ⟨more ++ above, stack, stack', suits⟩ }

/-- Both are back from an invocation. -/
theorem Abreast.back {frame : FrameId} (h : Abreast (stand.inFrame frame) kept below below' m m') :
    Abreast stand kept below below' m.letGo.leave m'.letGo.leave := by
  have move : ∀ m : Machine σ, Move Free ⟨m, [], []⟩ ⟨m.letGo.leave, [], []⟩ := fun _ =>
    .count (List.tail_sublist _).subset
  have place : ∀ {m : Machine σ}, m.session.place = (stand.inFrame frame).place →
      m.letGo.leave.session.place = stand.place := by
    intro m same
    change (⟨m.session.place.registry, m.session.place.ambient, m.session.place.running.tail,
      m.session.place.depth - 1⟩ : Place) = stand.place
    rw [same]
    rfl
  exact h.onwards (move m) (move m') (List.Subset.refl _) (List.Subset.refl _) rfl h.common
    (place h.place) (place h.place') h.held h.within h.stack fun _ _ _ => .inl

/-- Two stacks below the same machine. -/
theorem Machine.IsFlat.abreast (flat : m.IsFlat) (below below' : List Value) :
    Abreast ⟨m.session.place, m.common.held, m.roots, List.Subset.refl _⟩ [] below below'
      (m.withStack below) (m.withStack below') where
  common := rfl
  place := rfl
  place' := rfl
  held := rfl
  owned := flat.sound
  owned' := flat.sound
  within := flat.within
  stack := ⟨[], rfl, rfl, nofun⟩
  bound f alive _ name v found := by
    rintro params body home rfl
    refine (flat.homes f alive name params body home found).imp (fun mem => ⟨mem, mem⟩) ?_
    exact Or.imp_right fun ⟨lt, gone⟩ => ⟨lt, gone, gone⟩

theorem Abreast.isFlat (h : Abreast stand kept below below m m) : m.IsFlat where
  within := h.within
  sound := h.owned
  homes f alive name params body home found := by
    refine (h.bound f alive alive name _ found params body home rfl).imp And.left ?_
    refine Or.imp (fun anchor => ?_) fun ⟨lt, gone, _⟩ => ⟨lt, gone⟩
    obtain ⟨o, owns, mem⟩ := Store.alive_iff.mp anchor
    exact Store.alive_iff.mpr ⟨o, h.roots_eq ▸ stand.anchored owns, mem⟩

end Onwards

end PeerScript
