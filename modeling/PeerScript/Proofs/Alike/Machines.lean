import PeerScript.Proofs.Alike.Stores

/-!
# Machines that look alike

Two machines look alike when their sessions hold alike values and paired frames, and when paired
frames are alike as far as both sessions keep them.  What a script can find out about frames is then
the same for both.

The two sessions need not have captured the same frames, since what others hold decides what a sweep
forgets.  This makes no difference because a function is only called while its home is captured:
`Tends` says so of all functions that a session can get hold of.
-/

set_option autoImplicit false

namespace PeerScript

variable {σ : Type} {hidden : String → Prop} {root : FrameId} {p : Pairing}

/-! ## Places -/

/-- Where a machine runs. -/
structure Place where
  registry : Registry
  ambient : FrameId
  running : List FrameId
  depth : Nat

/-- Where a session runs. -/
def Session.place (s : Session) : Place := ⟨s.registry, s.ambient, s.running, s.depth⟩

theorem Machine.place_capture (m : Machine σ) (f : FrameId) :
    (m.capture f).session.place = m.session.place := by
  rcases m.capture_cases f with ⟨-, same⟩ | ⟨_, _, -, same⟩
  · rw [same]
  · rw [same]
    rfl

namespace Place

/-- A frame in which something can be run. -/
def Enters (place : Place) (f : FrameId) : Prop := f ∈ place.ambient :: place.running

/-- The place inside of one more invocation, which has the given frame. -/
def inFrame (place : Place) (frame : FrameId) : Place :=
  { place with running := frame :: place.running, depth := place.depth + 1 }

end Place

theorem Machine.enters_of_place {m : Machine σ} {place : Place} (same : m.session.place = place)
    {f : FrameId} (enters : place.Enters f) : m.Enters f := by
  subst same
  exact enters

theorem Machine.place_called {m : Machine σ} {place : Place} (same : m.session.place = place)
    (parent frame : FrameId) (bindings : List (String × Value)) :
    ((m.framed parent bindings).enter.hold frame).session.place = place.inFrame frame := by
  subst same
  rfl

/-- Back from an invocation the machine runs where it ran before. -/
theorem Machine.place_back {m : Machine σ} {place : Place} {frame : FrameId}
    (same : m.session.place = place.inFrame frame) : m.letGo.leave.session.place = place := by
  change (⟨m.session.place.registry, m.session.place.ambient, m.session.place.running.tail,
    m.session.place.depth - 1⟩ : Place) = place
  rw [same]
  rfl

/-- Where two machines run. -/
structure Places where
  left : Place
  right : Place

/-- Paired frames in which something can be run. -/
structure Places.Enters (at_ : Places) (p : Pairing) (f g : FrameId) : Prop where
  paired : p.frames f g
  left : at_.left.Enters f
  right : at_.right.Enters g

theorem Places.Enters.mono {at_ : Places} {q : Pairing} (le : p ≤ q) {f g : FrameId}
    (h : at_.Enters p f g) : at_.Enters q f g := ⟨le.1 f g h.paired, h.left, h.right⟩

/-! ## Sessions and machines -/

/-- Sessions with alike values and paired frames. -/
structure Session.Alike (hidden : String → Prop) (p : Pairing) (s t : Session) : Prop where
  registry : s.registry = t.registry
  natural : s.registry.IsNatural
  ambient : p.frames s.ambient t.ambient
  stack : Value.AllAlike hidden p s.stack t.stack
  depth : s.depth = t.depth
  running : List.Forall₂ p.frames s.running t.running

theorem Session.Alike.mono {q : Pairing} (le : p ≤ q) {s t : Session} (h : s.Alike hidden p t) :
    s.Alike hidden q t where
  registry := h.registry
  natural := h.natural
  ambient := le.1 _ _ h.ambient
  stack := h.stack.mono le
  depth := h.depth
  running := h.running.imp le.1

/-- What a session looks like depends on its place and its stack. -/
theorem Session.Alike.of_place {s s' t t' : Session} (h : s.Alike hidden p t)
    (place : s'.place = s.place) (place' : t'.place = t.place) (stack : s'.stack = s.stack)
    (stack' : t'.stack = t.stack) : s'.Alike hidden p t' := by
  obtain ⟨registry, ambient, running, depth⟩ := Place.mk.inj place
  obtain ⟨registry', ambient', running', depth'⟩ := Place.mk.inj place'
  constructor
  · rw [registry, registry']
    exact h.registry
  · rw [registry]
    exact h.natural
  · rw [ambient, ambient']
    exact h.ambient
  · rw [stack, stack']
    exact h.stack
  · rw [depth, depth']
    exact h.depth
  · rw [running, running']
    exact h.running

/-- Any value will do. -/
def Anything : Store → Value → Prop := fun _ _ => True

theorem lasting_anything : Lasting Anything := fun _ _ _ _ _ => trivial

/-- Machines whose sessions can get hold of the same, up to paired names. -/
structure Machine.Alike (hidden : String → Prop) (root : FrameId) (p : Pairing) (m m' : Machine σ) :
    Prop where
  session : m.session.Alike hidden p m'.session
  one : p.IsOneToOne
  below : p.Below m.common.serial m'.common.serial
  frames : ∀ f g, p.frames f g →
    FramesAlike hidden root p (m.Keeps f ∧ m'.Keeps g) m.common.store m'.common.store f g
  captured : ∀ f ∈ m.session.captured, ∃ g, p.frames f g
  left : m.Tends hidden Anything
  right : m'.Tends hidden Anything

/-- Machines at two places that look alike and have left foreign frames alone. -/
structure Machines (w : Sides σ hidden root) (at_ : Places) (p : Pairing) (m m' : Machine σ) :
    Prop extends m.Alike hidden root p m' where
  place_left : m.session.place = at_.left
  place_right : m'.session.place = at_.right
  kept_left : w.left.Kept m.common
  kept_right : w.right.Kept m'.common
  own : ∀ f g, p.frames f g → ¬ w.left.foreign f ∧ ¬ w.right.foreign g

/-- Values that look alike, and that two sessions can hold. -/
structure InHand (hidden : String → Prop) (p : Pairing) (m m' : Machine σ) (v v' : Value) :
    Prop where
  alike : v.Alike hidden p v'
  left : m.Houses v
  right : m'.Houses v'

/-- Values that look alike one by one, and that two sessions can hold. -/
structure AllInHand (hidden : String → Prop) (p : Pairing) (m m' : Machine σ)
    (vs vs' : List Value) : Prop where
  alike : Value.AllAlike hidden p vs vs'
  left : ∀ v ∈ vs, m.Houses v
  right : ∀ v ∈ vs', m'.Houses v

namespace AllInHand

variable {m m' : Machine σ} {v v' : Value} {vs vs' ws ws' : List Value}

theorem nil : AllInHand hidden p m m' [] [] := ⟨.nil, nofun, nofun⟩

theorem cons (first : InHand hidden p m m' v v') (rest : AllInHand hidden p m m' vs vs') :
    AllInHand hidden p m m' (v :: vs) (v' :: vs') :=
  ⟨.cons first.alike rest.alike, List.forall_mem_cons.mpr ⟨first.left, rest.left⟩,
    List.forall_mem_cons.mpr ⟨first.right, rest.right⟩⟩

theorem append (h : AllInHand hidden p m m' vs vs') (k : AllInHand hidden p m m' ws ws') :
    AllInHand hidden p m m' (vs ++ ws) (vs' ++ ws') :=
  ⟨h.alike.append k.alike, List.forall_mem_append.mpr ⟨h.left, k.left⟩,
    List.forall_mem_append.mpr ⟨h.right, k.right⟩⟩

end AllInHand

/-- What cannot be called needs no home. -/
theorem Value.Alike.inHand {m m' : Machine σ} {v v' : Value} (alike : v.Alike hidden p v')
    (inert : v.isInvocable = false) : InHand hidden p m m' v v' := by
  refine ⟨alike, Machine.houses_plain fun params body f same => ?_,
    Machine.houses_plain fun params body f same => ?_⟩
  · rw [same] at inert
    exact nomatch inert
  · rw [same] at alike
    cases alike
    exact nomatch inert

theorem Machine.Alike.there {m m' : Machine σ} (h : m.Alike hidden root p m') {f g : FrameId}
    (paired : p.frames f g) :
    f < m.common.store.frames.size ∧ g < m'.common.store.frames.size :=
  ⟨(h.frames f g paired).lt_left, (h.frames f g paired).lt_right⟩

namespace Machines

variable {w : Sides σ hidden root} {at_ : Places} {m m' : Machine σ} {f g : FrameId}
  {v v' : Value} {vs vs' : List Value}

section

variable (h : Machines w at_ p m m')

include h

theorem enters_left (enters : at_.Enters p f g) : m.Enters f :=
  Machine.enters_of_place h.place_left enters.left

theorem enters_right (enters : at_.Enters p f g) : m'.Enters g :=
  Machine.enters_of_place h.place_right enters.right

theorem ambient : at_.Enters p m.session.ambient m'.session.ambient where
  paired := h.session.ambient
  left := by
    rw [← h.place_left]
    exact List.mem_cons_self
  right := by
    rw [← h.place_right]
    exact List.mem_cons_self

/-! ## Names -/

/-- The chains of paired frames are paired up to the global frame. -/
theorem chain_alike (f g : FrameId) (paired : p.frames f g) (kept : m.Keeps f)
    (kept' : m'.Keeps g) : ∃ fs gs, m.common.store.chain f = fs ++ [root] ∧
      m'.common.store.chain g = gs ++ [root] ∧
      List.Forall₂ (fun f g => p.frames f g ∧ m.Keeps f ∧ m'.Keeps g) fs gs := by
  induction f using Nat.strongRecOn generalizing g with
  | ind f ih =>
      obtain ⟨f', g', parent, parent', lt, lt', above⟩ := (h.frames f g paired).parents
      have chain := Store.chain_of_some parent lt
      have chain' := Store.chain_of_some parent' lt'
      rcases above with above | ⟨rfl, rfl⟩
      · have still : m.Keeps f' :=
          kept.chain (chain ▸ List.mem_cons_of_mem _ (Store.mem_chain_self _ _))
        have still' : m'.Keeps g' :=
          kept'.chain (chain' ▸ List.mem_cons_of_mem _ (Store.mem_chain_self _ _))
        obtain ⟨fs, gs, upper, upper', all⟩ := ih f' lt g' above still still'
        refine ⟨f :: fs, g :: gs, ?_, ?_, .cons ⟨paired, kept, kept'⟩ all⟩
        · rw [chain, upper]
          rfl
        · rw [chain', upper']
          rfl
      · refine ⟨[f], [g], ?_, ?_, .cons ⟨paired, kept, kept'⟩ .nil⟩
        · rw [chain, h.kept_left.chain_root]
          rfl
        · rw [chain', h.kept_right.chain_root]
          rfl

/-- Names mean the same in paired frames. -/
theorem get?_alike (enters : at_.Enters p f g) {name : String} (shown : ¬ hidden name) :
    Option.Rel (InHand hidden p m m') (m.common.store.get? f name)
      (m'.common.store.get? g name) := by
  have kept := (h.enters_left enters).keeps
  have kept' := (h.enters_right enters).keeps
  obtain ⟨fs, gs, chain, chain', all⟩ := h.chain_alike f g enters.paired kept kept'
  have found : Option.Rel (Value.Alike hidden p) (m.common.store.get? f name)
      (m'.common.store.get? g name) := by
    rw [Store.get?_of_chain chain, Store.get?_of_chain chain']
    clear chain chain'
    induction all with
    | nil =>
        simp only [List.nil_append, List.findSome?_singleton]
        exact w.root_alike h.kept_left h.kept_right shown
    | @cons f' g' _ _ first _ ih =>
        have bound : Option.Rel (Value.Alike hidden p) (m.common.store.local? f' name)
          (m'.common.store.local? g' name) :=
          ((h.frames f' g' first.1).bindings first.2).lookup name
        rw [List.cons_append, List.cons_append, List.findSome?_cons, List.findSome?_cons]
        generalize m.common.store.local? f' name = x, m'.common.store.local? g' name = y at bound ⊢
        cases bound with
        | some alike => exact .some alike
        | none => exact ih
  have fits := fun v => h.left.get? (v := v) kept shown
  have fits' := fun v => h.right.get? (v := v) kept' shown
  generalize m.common.store.get? f name = x, m'.common.store.get? g name = y
    at found fits fits' ⊢
  cases found with
  | none => exact .none
  | some alike => exact .some ⟨alike, (fits _ rfl).housed, (fits' _ rfl).housed⟩

theorem contains_alike (enters : at_.Enters p f g) {name : String} (shown : ¬ hidden name) :
    m.common.store.contains f name = m'.common.store.contains g name := by
  have found := h.get?_alike enters shown
  rw [Store.contains_eq, Store.contains_eq]
  generalize m.common.store.get? f name = x, m'.common.store.get? g name = y at found ⊢
  cases found <;> rfl

/-! ## Stacks -/

theorem stack : AllInHand hidden p m m' m.session.stack m'.session.stack :=
  ⟨h.session.stack, fun v mem => (h.left.stack v mem).housed,
    fun v mem => (h.right.stack v mem).housed⟩

theorem withStack (fits : AllInHand hidden p m m' vs vs') :
    Machines w at_ p (m.withStack vs) (m'.withStack vs') where
  session := { h.session with stack := fits.alike }
  one := h.one
  below := h.below
  frames := h.frames
  captured := h.captured
  left := h.left.withStack fun v mem => ⟨fits.left v mem, trivial⟩
  right := h.right.withStack fun v mem => ⟨fits.right v mem, trivial⟩
  place_left := h.place_left
  place_right := h.place_right
  kept_left := h.kept_left
  kept_right := h.kept_right
  own := h.own

theorem push (fits : InHand hidden p m m' v v') : Machines w at_ p (m.push v) (m'.push v') :=
  h.withStack (.cons fits h.stack)

theorem pushAll (fits : AllInHand hidden p m m' vs vs') :
    Machines w at_ p (m.pushAll vs) (m'.pushAll vs') := by
  refine h.withStack (.append ⟨?_, ?_, ?_⟩ h.stack)
  · exact Value.allAlike_iff.mpr (List.rel_reverse (Value.allAlike_iff.mp fits.alike))
  · exact fun v mem => fits.left v (List.mem_reverse.mp mem)
  · exact fun v mem => fits.right v (List.mem_reverse.mp mem)

/-! ## Frames -/

/-- A name is bound in paired frames. -/
theorem bind (paired : p.frames f g) (name : String) (fits : InHand hidden p m m' v v') :
    Machines w at_ p (m.bind f name v) (m'.bind g name v') where
  session := h.session
  one := h.one
  below := h.below
  frames f' g' paired' := by
    have bound := (h.frames f' g' paired').set h.one paired' paired name fits.alike
    refine bound.unused fun ⟨kept, kept'⟩ => ⟨?_, ?_⟩
    · exact ((m.common.store.extends_set f name v).alive_iff h.left.owned).mp kept
    · exact ((m'.common.store.extends_set g name v').alive_iff h.right.owned).mp kept'
  captured := h.captured
  left := h.left.bind lasting_anything ⟨fits.left, trivial⟩ f name
  right := h.right.bind lasting_anything ⟨fits.right, trivial⟩ g name
  place_left := h.place_left
  place_right := h.place_right
  kept_left := h.kept_left.set (h.own f g paired).1 name v
  kept_right := h.kept_right.set (h.own f g paired).2 name v'
  own := h.own

/-- A function is called: its body gets a new frame, and the two new frames are paired. -/
theorem framed (paired : p.frames f g) {bs cs : List (String × Value)}
    (alike : BindingsAlike hidden p bs cs) (left : ∀ b ∈ bs, m.Houses b.2)
    (right : ∀ b ∈ cs, m'.Houses b.2) :
    Machines w at_ (p.withFrames m.common.store.frames.size m'.common.store.frames.size)
      (m.framed f bs) (m'.framed g cs) := by
  have le := p.le_withFrames m.common.store.frames.size m'.common.store.frames.size
  have one := h.one.withFrames (f := m.common.store.frames.size)
    (g := m'.common.store.frames.size) (fun g' paired => Nat.lt_irrefl _ (h.there paired).1)
    fun f' paired => Nat.lt_irrefl _ (h.there paired).2
  have new : (p.withFrames m.common.store.frames.size m'.common.store.frames.size).frames
      m.common.store.frames.size m'.common.store.frames.size := .inr ⟨rfl, rfl⟩
  obtain ⟨lt, lt'⟩ := h.there paired
  exact
    { session := h.session.mono le
      one := one
      below := h.below
      frames := by
        rintro f' g' paired'
        refine FramesAlike.setAll ?_ one paired' new (alike.mono le)
        rcases paired' with paired' | ⟨rfl, rfl⟩
        · refine (((h.frames f' g' paired').mono le).alloc _ _).unused fun ⟨kept, kept'⟩ => ⟨?_, ?_⟩
          · exact ((m.extends_framed f bs).alive_iff h.left.owned).mp kept
          · exact ((m'.extends_framed g cs).alive_iff h.right.owned).mp kept'
        · exact framesAlike_alloc _ lt lt' (.inl (le.1 f g paired))
      captured := fun f' mem => (h.captured f' mem).imp fun g' => le.1 f' g'
      left := (h.left.framed lasting_anything f fun b mem => ⟨left b mem, trivial⟩).1
      right := (h.right.framed lasting_anything g fun b mem => ⟨right b mem, trivial⟩).1
      place_left := h.place_left
      place_right := h.place_right
      kept_left := (h.kept_left.alloc _).setAll h.kept_left.fresh bs
      kept_right := (h.kept_right.alloc _).setAll h.kept_right.fresh cs
      own := by
        rintro f' g' (paired | ⟨rfl, rfl⟩)
        · exact h.own f' g' paired
        · exact ⟨h.kept_left.fresh, h.kept_right.fresh⟩ }

/-- A function is made.  The sweeps that this may bring about may differ. -/
theorem capture (enters : at_.Enters p f g) :
    Machines w at_ p (m.capture f) (m'.capture g) ∧
      f ∈ (m.capture f).session.captured ∧ g ∈ (m'.capture g).session.captured := by
  have here := h.enters_left enters
  have here' := h.enters_right enters
  obtain ⟨left, mem⟩ := h.left.capture here
  obtain ⟨right, mem'⟩ := h.right.capture here'
  have place := m.place_capture f
  have place' := m'.place_capture g
  refine ⟨?_, mem, mem'⟩
  exact
    { session := h.session.of_place place place' (m.stack_capture f) (m'.stack_capture g)
      one := h.one
      below := by
        rw [m.common_capture f, m'.common_capture g]
        exact h.below
      frames := fun f' g' paired => by
        rw [m.common_capture f, m'.common_capture g]
        exact (h.frames f' g' paired).unused fun ⟨kept, kept'⟩ =>
          ⟨Machine.keeps_of_capture here kept, Machine.keeps_of_capture here' kept'⟩
      captured := fun f' mem => by
        rcases m.capture_cases f with ⟨-, same⟩ | ⟨captured, _, sub, same⟩
        · exact h.captured f' (same ▸ mem)
        · rw [same] at mem
          rcases List.mem_append.mp (sub mem) with old | last
          · exact h.captured f' old
          · exact ⟨g, List.mem_singleton.mp last ▸ enters.paired⟩
      left := left
      right := right
      place_left := place.trans h.place_left
      place_right := place'.trans h.place_right
      kept_left := m.common_capture f ▸ h.kept_left
      kept_right := m'.common_capture g ▸ h.kept_right
      own := h.own }

/-- Serial numbers have been given out, which may have become paired, and lines have been
printed. -/
theorem later {q : Pairing} (le : p ≤ q) (frames : q.frames = p.frames) (one : q.IsOneToOne)
    {c d : Common σ} (store : c.store = m.common.store) (store' : d.store = m'.common.store)
    (world : c.world = m.common.world) (world' : d.world = m'.common.world)
    (below : q.Below c.serial d.serial) (left : m.common.serial ≤ c.serial)
    (right : m'.common.serial ≤ d.serial) :
    Machines w at_ q ⟨m.session, c⟩ ⟨m'.session, d⟩ where
  session := h.session.mono le
  one := one
  below := below
  frames f g paired := by
    rw [frames] at paired
    change FramesAlike hidden root q (c.store.alive _ _ = true ∧ d.store.alive _ _ = true)
      c.store d.store f g
    rw [store, store']
    exact (h.frames f g paired).mono le
  captured := frames ▸ h.captured
  left := h.left.narrowed rfl rfl (List.Subset.refl _) store
  right := h.right.narrowed rfl rfl (List.Subset.refl _) store'
  place_left := h.place_left
  place_right := h.place_right
  kept_left := h.kept_left.later store world left
  kept_right := h.kept_right.later store' world' right
  own := frames ▸ h.own

end

/-! ## Invocations -/

/-- The body of a function runs in its frame. -/
theorem called (h : Machines w at_ p m m') (paired : p.frames f g) (kept : m.Keeps f)
    (kept' : m'.Keeps g) {bs cs : List (String × Value)} (alike : BindingsAlike hidden p bs cs)
    (left : ∀ b ∈ bs, m.Houses b.2) (right : ∀ b ∈ cs, m'.Houses b.2) :
    Machines w
      ⟨at_.left.inFrame m.common.store.frames.size, at_.right.inFrame m'.common.store.frames.size⟩
      (p.withFrames m.common.store.frames.size m'.common.store.frames.size)
      ((m.framed f bs).enter.hold m.common.store.frames.size)
      ((m'.framed g cs).enter.hold m'.common.store.frames.size) := by
  have inner := h.framed paired alike left right
  have new : (p.withFrames m.common.store.frames.size m'.common.store.frames.size).frames
      m.common.store.frames.size m'.common.store.frames.size := .inr ⟨rfl, rfl⟩
  obtain ⟨lt, lt'⟩ := h.there paired
  exact
    { session := { inner.session with
        depth := congrArg (· + 1) inner.session.depth
        running := .cons new inner.session.running }
      one := inner.one
      below := inner.below
      frames := fun f' g' paired' => by
        have le := p.le_withFrames m.common.store.frames.size m'.common.store.frames.size
        refine FramesAlike.setAll ?_ inner.one paired' new (alike.mono le)
        rcases paired' with paired' | ⟨rfl, rfl⟩
        · refine (((h.frames f' g' paired').mono le).alloc _ _).unused
            fun ⟨keeps, keeps'⟩ => ⟨?_, ?_⟩
          · exact (Machine.keeps_of_called h.left.owned lt kept keeps).resolve_left
              (Nat.ne_of_lt (h.there paired').1)
          · exact (Machine.keeps_of_called h.right.owned lt' kept' keeps').resolve_left
              (Nat.ne_of_lt (h.there paired').2)
        · exact framesAlike_alloc _ lt lt' (.inl (le.1 f g paired))
      captured := inner.captured
      left := h.left.called lasting_anything kept fun b mem => ⟨left b mem, trivial⟩
      right := h.right.called lasting_anything kept' fun b mem => ⟨right b mem, trivial⟩
      place_left := Machine.place_called h.place_left _ _ _
      place_right := Machine.place_called h.place_right _ _ _
      kept_left := inner.kept_left
      kept_right := inner.kept_right
      own := inner.own }

/-- Both are back from an invocation. -/
theorem back {f g : FrameId} (h : Machines w ⟨at_.left.inFrame f, at_.right.inFrame g⟩ p m m') :
    Machines w at_ p m.letGo.leave m'.letGo.leave := by
  have fewer : ∀ n : Machine σ, n.letGo.leave.session.handles ⊆ n.session.handles := by
    intro n o mem
    rcases List.mem_append.mp mem with mem | mem
    · exact List.mem_append_left _ mem
    · refine List.mem_append_right _ ?_
      exact (List.mem_cons.mp mem).elim (fun same => same ▸ List.mem_cons_self)
        fun mem => List.mem_cons_of_mem _ (List.mem_of_mem_tail mem)
  have keeps : ∀ {n : Machine σ} {f : FrameId}, n.letGo.leave.Keeps f → n.Keeps f := by
    intro n f kept
    obtain ⟨o, owns, above⟩ := Store.alive_iff.mp kept
    exact Store.alive_iff.mpr ⟨o, fewer n owns, above⟩
  have tails : ∀ {fs gs : List FrameId}, List.Forall₂ p.frames fs gs →
      List.Forall₂ p.frames fs.tail gs.tail := by
    intro fs gs all
    cases all with
    | nil => exact .nil
    | cons _ rest => exact rest
  exact
    { session := { h.session with
        depth := congrArg (· - 1) h.session.depth
        running := tails h.session.running }
      one := h.one
      below := h.below
      frames := fun f' g' paired =>
        (h.frames f' g' paired).unused fun ⟨kept, kept'⟩ => ⟨keeps kept, keeps kept'⟩
      captured := h.captured
      left := h.left.letGo.leave
      right := h.right.letGo.leave
      place_left := Machine.place_back h.place_left
      place_right := Machine.place_back h.place_right
      kept_left := h.kept_left
      kept_right := h.kept_right
      own := h.own }

end Machines

end PeerScript
