import PeerScript.Proofs.Locality

/-!
# Names that are found

A script becomes a tree only if every name that it uses is bound outside or somewhere in the script.
When it runs, a name can still be missing: the binding may not have been made yet.  Only of such
*late* names is this so.  Parameters are bound in the frame of the call, the homes of functions are
kept, and a name that was bound outside stays bound, whatever happens.

`Honours` says of a session that its functions will find their names.  What the session shares with
others enters as an `Outlook`: others may change what is shared as long as they leave the frames of
the session alone.
-/

set_option autoImplicit false

namespace PeerScript

variable {σ α β : Type}

/-! ## Names in view -/

namespace Store

variable {s t : Store} {f g : FrameId} {name : String} {writes : FrameId → Prop}

theorem contains_iff_local? : s.contains f name = true ↔ ∃ g ∈ s.chain f,
      (s.local? g name).isSome = true := by
  rw [contains_eq, get?, List.findSome?_isSome_iff]

theorem lt_of_contains (known : s.contains f name = true) : f < s.frames.size := by
  obtain ⟨g, above, found⟩ := contains_iff_local?.mp known
  rcases s.chain_cases f with alone | ⟨p, parent, -, -⟩
  · rw [alone, List.mem_singleton] at above
    subst above
    obtain ⟨v, found⟩ := Option.isSome_iff_exists.mp found
    exact lt_of_local? found
  · exact lt_of_parent? parent

/-- A name that is in view is in view further down. -/
theorem contains_of_chain (above : g ∈ s.chain f) (known : s.contains g name = true) :
    s.contains f name = true := by
  obtain ⟨h, up, found⟩ := contains_iff_local?.mp known
  exact contains_iff_local?.mpr ⟨h, (chain_subset above).2 up, found⟩

theorem Spares.local?_eq (h : s.Spares writes t) (lt : f < s.frames.size) (no : ¬ writes f)
    (name : String) : t.local? f name = s.local? f name := by
  rw [local?, local?, h.bindings f lt no]

/-- Where nothing is written above a frame, the names in view there stay in view. -/
theorem Spares.contains (h : s.Spares writes t) (no : ∀ g ∈ s.chain f, ¬ writes g)
    (known : s.contains f name = true) : t.contains f name = true := by
  have lt := lt_of_contains known
  obtain ⟨g, above, found⟩ := contains_iff_local?.mp known
  refine contains_iff_local?.mpr ⟨g, h.chain_eq lt ▸ above, ?_⟩
  rw [h.local?_eq (Nat.lt_of_le_of_lt (chain_subset above).1 lt) (no g above)]
  exact found

end Store

/-! ## Values that can be called -/

/-- The frame in which a function was made. -/
def Value.home? : Value → Option FrameId
  | .closure _ _ home => home
  | _ => none

/-- The scope of a session, the names that its scripts bind somewhere, and the objects that it can
get at. -/
structure Footing where
  ambient : FrameId
  late : String → Prop
  own : Object → Prop

namespace Footing

/-- What the session can get at. -/
def kit (p : Footing) : Kit := ⟨fun _ => True, p.own, fun _ => True, fun _ => True⟩

/-- The body of a function finds its names: they are its parameters, or late, or in view from the
scope of the session or from the home of the function. -/
structure Good (p : Footing) (s : Store) (v : Value) : Prop where
  within : v.Within p.kit
  source : ∀ params body home, v = .closure params body home → body.IsSource
  free : ∀ name ∈ v.free, p.late name ∨ s.contains p.ambient name = true ∨
    ∃ f ∈ v.home?, s.contains f name = true

variable {p : Footing} {s : Store} {v : Value}

theorem lasting_good (p : Footing) : Lasting p.Good := by
  intro s t v widens good
  refine ⟨good.within, good.source, fun name mem => (good.free name mem).imp_right ?_⟩
  have still : ∀ {f}, s.contains f name = true → t.contains f name = true := fun known =>
    widens.contains (Store.lt_of_contains known) known
  exact Or.imp still fun ⟨f, home, known⟩ => ⟨f, home, still known⟩

/-- What is no function looks up nothing. -/
theorem good_of_flat (flat : ∀ params body home, v ≠ .closure params body home)
    (within : v.Within p.kit) :
    p.Good s v where
  within := within
  source params body home same := absurd same (flat params body home)
  free name mem := by
    cases v with
    | closure params body home => exact absurd rfl (flat params body home)
    | _ => exact nomatch mem

end Footing

theorem Value.IsData.flat {v : Value} (data : v.IsData) (params : List String) (body : Tree)
    (home : Option FrameId) : v ≠ .closure params body home := by
  cases data <;> exact nofun

theorem Value.IsData.fits {v : Value} (data : v.IsData) (p : Footing) (m : Machine σ) :
    m.Fits p.Good v where
  housed := Machine.houses_plain fun params body f => data.flat params body (some f)
  good := Footing.good_of_flat data.flat (data.within _)

/-! ## Sessions -/

/-- A session has captured the homes of its functions, and all its frames lie below its scope. -/
structure Machine.Stands (p : Footing) (m : Machine σ) : Prop where
  ambient : m.session.ambient = p.ambient
  tends : m.Tends (fun _ => False) p.Good
  rooted : ∀ o ∈ m.session.handles, p.ambient ∈ m.common.store.chain o

/-- What a session can count on: where it stands, and what is known of what it shares with others.
This stays known when names are bound in frames of the session, when it makes new frames, and when
it gives out numbers. -/
structure Outlook (σ : Type) extends Footing where
  shared : Common σ → Prop
  goes : ∀ c d : Common σ, shared c → c.store.Spares (fun f => ambient ∈ c.store.chain f) d.store →
    (c.store.Within toFooting.kit → d.store.Within toFooting.kit) → c.serial ≤ d.serial →
    d.world = c.world → shared d

/-- A session stands, and what it shares is as it may count on. -/
structure Machine.Honours (o : Outlook σ) (m : Machine σ) : Prop extends m.Stands o.toFooting where
  shared : o.shared m.common

/-- The same scripts run in the same frames, and from there all names are in view that were. -/
structure Machine.Onward (m m' : Machine σ) : Prop where
  ambient : m'.session.ambient = m.session.ambient
  running : m'.session.running = m.session.running
  finds : ∀ f name, m.Enters f → m.common.store.contains f name = true →
    m'.common.store.contains f name = true

/-- A name is in view from a frame, or else from the scope of the session. -/
def Machine.Sees (m : Machine σ) (f : FrameId) (name : String) : Prop :=
  m.common.store.contains f name = true ∨ m.common.store.contains m.session.ambient name = true

namespace Machine

variable {o : Outlook σ} {m m' m'' : Machine σ} {f scope : FrameId} {name : String} {v : Value}
  {vs : List Value}

namespace Onward

theorem refl (m : Machine σ) : m.Onward m := ⟨rfl, rfl, fun _ _ _ => id⟩

theorem enters (h : m.Onward m') (enters : m.Enters f) : m'.Enters f := by
  rwa [Enters, h.ambient, h.running]

theorem trans (h : m.Onward m') (k : m'.Onward m'') : m.Onward m'' where
  ambient := k.ambient.trans h.ambient
  running := k.running.trans h.running
  finds f name enters known := k.finds f name (h.enters enters) (h.finds f name enters known)

theorem sees (h : m.Onward m') (enters : m.Enters f) (sees : m.Sees f name) : m'.Sees f name := by
  refine sees.imp (h.finds f name enters) fun known => ?_
  rw [h.ambient]
  exact h.finds _ name m.enters_ambient known

theorem of_widens {session : Session} {common : Common σ}
    (ambient : session.ambient = m.session.ambient) (running : session.running = m.session.running)
    (widens : m.common.store.Widens common.store) :
    m.Onward ⟨session, common⟩ :=
  ⟨ambient, running, fun _ _ _ known => widens.contains (Store.lt_of_contains known) known⟩

/-- The frames are as before. -/
theorem of_store {session : Session} {common : Common σ}
    (ambient : session.ambient = m.session.ambient) (running : session.running = m.session.running)
    (store : common.store = m.common.store) :
    m.Onward ⟨session, common⟩ :=
  .of_widens ambient running (store ▸ .refl _)

end Onward

namespace Stands

variable {p : Footing} (h : m.Stands p)

include h

/-- Fewer frames are kept, or something else than the frames has changed. -/
theorem narrowed {session : Session} {common : Common σ} (stack : session.stack = m.session.stack)
    (captured : session.captured = m.session.captured)
    (ambient : session.ambient = m.session.ambient) (fewer : session.handles ⊆ m.session.handles)
    (store : common.store = m.common.store) :
    (Machine.mk session common).Stands p where
  ambient := ambient.trans h.ambient
  tends := h.tends.narrowed stack captured fewer store
  rooted o mem := store ▸ h.rooted o (fewer mem)

theorem withStack (fits : ∀ v ∈ vs, m.Fits p.Good v) : (m.withStack vs).Stands p :=
  ⟨h.ambient, h.tends.withStack fits, h.rooted⟩

theorem mono {q : Footing} (ambient : q.ambient = p.ambient) (own : q.own = p.own)
    (late : ∀ name, p.late name → q.late name) : m.Stands q := by
  have kit : q.kit = p.kit := by rw [Footing.kit, Footing.kit, own]
  have fits : ∀ {v}, m.Fits p.Good v → m.Fits q.Good v := fun fits =>
    ⟨fits.housed, kit ▸ fits.good.within, fits.good.source, fun name mem =>
      (fits.good.free name mem).imp (late name) (ambient ▸ id)⟩
  exact ⟨h.ambient.trans ambient.symm,
    ⟨h.tends.owned, fun v mem => fits (h.tends.stack v mem),
      fun f kept name v shown found => fits (h.tends.bound f kept name v shown found)⟩,
    ambient ▸ h.rooted⟩

/-- The scope of the session is above each frame in which it can run something. -/
theorem above (enters : m.Enters f) : p.ambient ∈ m.common.store.chain f := h.rooted f enters.mem

/-- Others have left the frames of the session alone. -/
theorem spared {common : Common σ}
    (spares : m.common.store.Spares (fun f => ¬ m.Keeps f) common.store) :
    (Machine.mk m.session common).Stands p := by
  have chain : ∀ o ∈ m.session.handles, common.store.chain o = m.common.store.chain o :=
    fun o mem =>
    spares.chain_eq (h.tends.owned o mem)
  have still : ∀ {f name}, m.Keeps f → m.common.store.contains f name = true →
      common.store.contains f name = true := fun kept known =>
    spares.contains (fun g above => not_not_intro (kept.chain above)) known
  have fits : ∀ {v}, m.Fits p.Good v → (Machine.mk m.session common).Fits p.Good v := by
    intro v fits
    refine ⟨fits.housed, fits.good.within, fits.good.source, fun name mem => ?_⟩
    refine (fits.good.free name mem).imp_right (Or.imp (fun known => ?_) fun ⟨f, home, known⟩ => ?_)
    · exact still (h.ambient ▸ (m.enters_ambient).keeps) known
    · refine ⟨f, home, still (keeps_of_mem (List.mem_append_left _ ?_)) known⟩
      cases v with
      | closure params body home' => exact fits.housed params body f (congrArg _ home)
      | _ => exact nomatch home
  refine ⟨h.ambient, ⟨fun o mem => Nat.lt_of_lt_of_le (h.tends.owned o mem) spares.size,
    fun v mem => fits (h.tends.stack v mem), fun f kept name v shown found => ?_⟩,
    fun o mem => (chain o mem).symm ▸ h.rooted o mem⟩
  obtain ⟨o, mem, above⟩ := Store.alive_iff.mp kept
  change f ∈ common.store.chain o at above
  rw [chain o mem] at above
  have kept : m.Keeps f := Store.alive_iff.mpr ⟨o, mem, above⟩
  change common.store.local? f name = some v at found
  rw [spares.local?_eq (h.tends.lt_of_keeps kept) (not_not_intro kept)] at found
  exact fits (h.tends.bound f kept name v shown found)

end Stands

namespace Honours

variable (h : m.Honours o)

include h

/-- Nothing has changed that matters. -/
theorem narrowed {session : Session} {common : Common σ} (stack : session.stack = m.session.stack)
    (captured : session.captured = m.session.captured)
    (ambient : session.ambient = m.session.ambient) (fewer : session.handles ⊆ m.session.handles)
    (store : common.store = m.common.store) (serial : m.common.serial ≤ common.serial)
    (world : common.world = m.common.world) :
    (Machine.mk session common).Honours o where
  toStands := h.toStands.narrowed stack captured ambient fewer store
  shared := o.goes _ _ h.shared (store ▸ .refl _ _) (store ▸ id) serial world

theorem withStack (fits : ∀ v ∈ vs, m.Fits o.Good v) : (m.withStack vs).Honours o :=
  ⟨h.toStands.withStack fits, h.shared⟩

theorem push (fits : m.Fits o.Good v) : (m.push v).Honours o :=
  h.withStack (List.forall_mem_cons.mpr ⟨fits, h.tends.stack⟩)

theorem pushAll (fits : ∀ v ∈ vs, m.Fits o.Good v) : (m.pushAll vs).Honours o :=
  ⟨⟨h.ambient, h.tends.pushAll fits, h.rooted⟩, h.shared⟩

theorem bind (enters : m.Enters scope) (name : String) (fits : m.Fits o.Good v) :
    (m.bind scope name v).Honours o where
  ambient := h.ambient
  tends := h.tends.bind o.lasting_good fits scope name
  rooted f mem := by
    change o.ambient ∈ (m.common.store.set scope name v).chain f
    rw [(m.common.store.extends_set scope name v).chain_eq (h.tends.owned f mem)]
    exact h.rooted f mem
  shared := by
    have spares : m.common.store.Spares (fun f => o.ambient ∈ m.common.store.chain f)
        (m.common.store.set scope name v) := by
      apply Store.spares_set
      exact h.above enters
    exact o.goes _ _ h.shared spares (fun within => within.set scope name fits.good.within)
      (Nat.le_refl _) rfl

theorem framed (parent : FrameId) {bindings : List (String × Value)}
    (fits : ∀ b ∈ bindings, m.Fits o.Good b.2) : (m.framed parent bindings).Honours o where
  ambient := h.ambient
  tends := (h.tends.framed o.lasting_good parent fits).1
  rooted f mem := by
    rw [(m.extends_framed parent bindings).chain_eq (h.tends.owned f mem)]
    exact h.rooted f mem
  shared := by
    refine o.goes _ _ h.shared ?_ (fun within => ?_) (Nat.le_refl _) rfl
    · have alloc :=
        m.common.store.spares_alloc (fun f => o.ambient ∈ m.common.store.chain f) (some parent)
      have bound : (m.common.store.alloc (some parent)).1.Spares (· = m.common.store.frames.size)
          (m.framed parent bindings).common.store := by
        apply Store.spares_setAll
        rfl
      exact alloc.trans bound fun f lt same => absurd lt (same ▸ Nat.lt_irrefl _)
    · exact (within.alloc (some parent)).setAll _ fun b mem => (fits b mem).good.within

/-- The body of a function runs in its frame. -/
theorem called {parent : FrameId} (kept : m.Keeps parent)
    (above : o.ambient ∈ m.common.store.chain parent) {bindings : List (String × Value)}
    (fits : ∀ b ∈ bindings, m.Fits o.Good b.2) :
    ((m.framed parent bindings).enter.hold m.common.store.frames.size).Honours o where
  ambient := h.ambient
  tends := h.tends.called o.lasting_good kept fits
  rooted f mem := by
    simp only [Session.handles, hold, enter, List.mem_append, List.mem_cons] at mem
    change o.ambient ∈ (m.framed parent bindings).common.store.chain f
    by_cases new : f = m.common.store.frames.size
    · subst new
      have lt := h.tends.lt_of_keeps kept
      rw [Store.chain_of_some (m.parent?_framed parent bindings) lt,
        (m.extends_framed parent bindings).chain_eq lt]
      exact List.mem_cons_of_mem _ above
    · refine (h.framed parent fits).rooted f ?_
      simp only [Session.handles, List.mem_append, List.mem_cons]
      exact mem.imp_right (Or.imp_right fun own => own.resolve_left new)
  shared := (h.framed parent fits).shared

theorem capture (enters : m.Enters scope) :
    (m.capture scope).Honours o ∧ scope ∈ (m.capture scope).session.captured ∧
      m.Onward (m.capture scope) := by
  obtain ⟨tends, captured⟩ := h.tends.capture enters
  have common := m.common_capture scope
  rcases m.capture_cases scope with ⟨known, same⟩ | ⟨kept, _, sub, same⟩
  · rw [same]
    exact ⟨h, known, .refl m⟩
  · have rooted : ∀ f ∈ (m.capture scope).session.handles,
        o.ambient ∈ (m.capture scope).common.store.chain f := by
      intro f mem
      rw [common]
      rw [same] at mem
      rcases List.mem_append.mp mem with mem | own
      · rcases List.mem_append.mp (sub mem) with mem | last
        · exact h.rooted f (List.mem_append_left _ mem)
        · exact List.mem_singleton.mp last ▸ h.above enters
      · exact h.rooted f (List.mem_append_right _ own)
    refine ⟨⟨⟨?_, tends, rooted⟩, common ▸ h.shared⟩, captured, ?_⟩
    · rw [same]
      exact h.ambient
    · rw [same]
      exact .of_store rfl rfl rfl

/-- Others have changed what is shared, and left the frames of the session alone. -/
theorem changed {d : Common σ} (spares : m.common.store.Spares (fun f => ¬ m.Keeps f) d.store)
    (shared : o.shared d) : (m.changed d).Honours o ∧ m.Onward (m.changed d) := by
  refine ⟨⟨h.toStands.spared spares, o.goes _ _ shared (.refl _ _) id (Nat.le_refl _) rfl⟩,
    rfl, rfl, ?_⟩
  intro f name enters known
  exact spares.contains (fun g above => not_not_intro (enters.keeps.chain above)) known

end Honours

end Machine

/-! ## Runs -/

/-- A name that is not found is late. -/
def Outlook.Allows (o : Outlook σ) (stop : Stop) : Prop :=
  ∀ name, stop = .failed (.unbound name) → o.late name

/-- The run leaves a session that honours the outlook, whichever way it ends; what it returns is
right, and a name that it has not found is late. -/
def Run.Honours (o : Outlook σ) (right : Machine σ → α → Prop) (r : Run σ α)
    (m : Machine σ) : Prop :=
  match r m with
  | .ok a m' => m.Onward m' ∧ m'.Honours o ∧ right m' a
  | .error stop m' => m.Onward m' ∧ m'.Honours o ∧ o.Allows stop

namespace Run.Honours

variable {o : Outlook σ} {right : Machine σ → α → Prop} {right' : Machine σ → β → Prop}
  {r : Run σ α}
  {f : α → Run σ β} {m m' : Machine σ}

theorem ok {a : α} (ran : r m = .ok a m') (onward : m.Onward m') (honours : m'.Honours o)
    (gives : right m' a) : Run.Honours o right r m := by
  rw [Run.Honours, ran]
  exact ⟨onward, honours, gives⟩

theorem error {stop : Stop} (ran : r m = .error stop m') (onward : m.Onward m')
    (honours : m'.Honours o) (allows : o.Allows stop) : Run.Honours o right r m := by
  rw [Run.Honours, ran]
  exact ⟨onward, honours, allows⟩

theorem after (h : Run.Honours o right r m) :
    (∃ a m', r m = .ok a m' ∧ m.Onward m' ∧ m'.Honours o ∧ right m' a) ∨
      ∃ stop m', r m = .error stop m' ∧ m.Onward m' ∧ m'.Honours o ∧ o.Allows stop := by
  rw [Run.Honours] at h
  cases ran : r m with
  | ok a m' =>
      rw [ran] at h
      exact .inl ⟨a, m', rfl, h⟩
  | error stop m' =>
      rw [ran] at h
      exact .inr ⟨stop, m', rfl, h⟩

theorem bind (h : Run.Honours o right r m)
    (next : ∀ a m', m.Onward m' → m'.Honours o → right m' a → Run.Honours o right' (f a) m') :
    Run.Honours o right' (r >>= f) m := by
  rcases h.after with ⟨a, m₁, ran, first, honours, gives⟩ | ⟨stop, m₁, ran, first, honours, allows⟩
  · rcases (next a m₁ first honours gives).after with
      ⟨b, m₂, ran', rest, honours', gives'⟩ | ⟨stop, m₂, ran', rest, honours', allows⟩
    · exact .ok ((bind_of_ok ran).trans ran') (first.trans rest) honours' gives'
    · exact .error ((bind_of_ok ran).trans ran') (first.trans rest) honours' allows
  · exact .error (bind_of_error ran) first honours allows

/-- The machine changes before the rest runs. -/
theorem resume {r' : Run σ α} (onward : m.Onward m') (step : r m = r' m')
    (h : Run.Honours o right r' m') : Run.Honours o right r m := by
  rcases h.after with ⟨a, m₂, ran, rest, honours, gives⟩ | ⟨stop, m₂, ran, rest, honours, allows⟩
  · exact .ok (step.trans ran) (onward.trans rest) honours gives
  · exact .error (step.trans ran) (onward.trans rest) honours allows

variable (honours : m.Honours o)

include honours

theorem pure {a : α} (gives : right m a) : Run.Honours o right (Pure.pure a) m :=
  .ok rfl (.refl m) honours gives

theorem stops {stop : Stop} (allows : o.Allows stop) : Run.Honours o right (throw stop) m :=
  .error rfl (.refl m) honours allows

theorem ofExcept {result : Except Fault α} (gives : ∀ a, result = .ok a → right m a)
    (faults : ∀ fault, result = .error fault → o.Allows (.failed fault)) :
    Run.Honours o right (ofExcept result) m := by
  cases result with
  | ok a => exact pure honours (gives a rfl)
  | error fault => exact stops honours (faults fault rfl)

theorem get : Run.Honours o (fun m' n => n = m ∧ m' = m) get m :=
  .ok rfl (.refl m) honours ⟨rfl, rfl⟩

theorem withStack {vs : List Value} (fits : ∀ v ∈ vs, m.Fits o.Good v) :
    Run.Honours o (fun m' _ => m' = m.withStack vs) (modify (·.withStack vs)) m :=
  .ok rfl (.of_store rfl rfl rfl) (honours.withStack fits) rfl

theorem push {v : Value} (fits : m.Fits o.Good v) : Run.Honours o (fun _ _ => True) (push v) m :=
  .ok rfl (.of_store rfl rfl rfl) (honours.push fits) trivial

theorem pop : Run.Honours o (fun _ _ => True) pop m := by
  refine bind (get honours) ?_
  rintro _ _ - - ⟨rfl, rfl⟩
  split
  · exact stops honours (by rintro _ ⟨⟩)
  · rename_i v rest stack
    have fits := honours.tends.stack
    rw [stack, List.forall_mem_cons] at fits
    exact bind (withStack honours fits.2) fun _ _ _ honours' _ => pure honours' trivial

theorem splitOff (base : Nat) :
    Run.Honours o (fun m' vs => ∀ v ∈ vs, m'.Fits o.Good v) (splitOff base) m := by
  have split := splitOff_eq base (m := m)
  have fits := honours.tends.stack
  split at split
  · exact .error split (.refl m) honours nofun
  · refine .ok split (.of_store rfl rfl rfl)
      (honours.withStack fun v mem => fits v (List.mem_of_mem_drop mem)) fun v mem => ?_
    have known := fits v (List.mem_of_mem_take (List.mem_reverse.mp mem))
    exact ⟨known.housed, known.good⟩

omit honours in
/-- Inside of an invocation it makes no difference what is counted. -/
theorem counted {right : α → Prop} (h : Run.Honours o (fun _ => right) r m.enter) :
    Run.Honours o (fun _ => right) (counted r) m := by
  have step := counted_eq r m
  have left : ∀ {m' : Machine σ}, m.enter.Onward m' → m.Onward m'.leave := fun onward =>
    ⟨onward.ambient, onward.running, onward.finds⟩
  have still : ∀ {m' : Machine σ}, m'.Honours o → m'.leave.Honours o := fun honours =>
    honours.narrowed rfl rfl rfl (List.Subset.refl _) rfl (Nat.le_refl _) rfl
  rcases h.after with ⟨a, m', ran, onward, honours, gives⟩
      | ⟨stop, m', ran, onward, honours, allows⟩
  · rw [ran] at step
    exact .ok step (left onward) (still honours) gives
  · rw [ran] at step
    exact .error step (left onward) (still honours) allows

omit honours in
theorem holding {right : α → Prop} {frame : FrameId}
    (h : Run.Honours o (fun _ => right) r (m.hold frame)) :
    Run.Honours o (fun _ => right) (holding frame r) m := by
  have step := holding_eq frame r m
  have left : ∀ {m' : Machine σ}, (m.hold frame).Onward m' → m.Onward m'.letGo := by
    intro m' onward
    refine ⟨onward.ambient, congrArg List.tail onward.running, fun f name enters => ?_⟩
    have inside : (m.hold frame).Enters f := by
      simp only [Machine.Enters, Machine.hold, List.mem_cons] at enters ⊢
      exact enters.imp_right .inr
    exact onward.finds f name inside
  have still : ∀ {m' : Machine σ}, m'.Honours o → m'.letGo.Honours o := fun honours => by
    refine honours.narrowed rfl rfl rfl (fun f mem => ?_) rfl (Nat.le_refl _) rfl
    simp only [Session.handles, List.mem_append, List.mem_cons] at mem ⊢
    exact mem.imp_right (Or.imp_right List.mem_of_mem_tail)
  rcases h.after with ⟨a, m', ran, onward, honours, gives⟩
      | ⟨stop, m', ran, onward, honours, allows⟩
  · rw [ran] at step
    exact .ok step (left onward) (still honours) gives
  · rw [ran] at step
    exact .error step (left onward) (still honours) allows

end Run.Honours

end PeerScript
