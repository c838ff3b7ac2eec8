import PeerScript.Proofs.Closures

/-!
# What a session can call

A session gets hold of a value on its stack, or by a name in a frame that one of its own handles
keeps.  `Tends` says of all of these values that they are `good`, and that functions among them have
homes which the session has captured, so that they are called where they were made.

Every part of a run keeps this: the sweep because it forgets no frame in which such a function was
made, the rest because nothing is bound or pushed that was not there.  What is good may depend on
the frames, as long as it stays good when frames are added and names are bound.
-/

set_option autoImplicit false

namespace PeerScript

variable {σ : Type}

/-! ## Frames that are kept -/

namespace Store

variable {s t : Store} {f g : FrameId} {name : String} {v : Value}

/-- Frames stay where they are and lose no names. -/
structure Widens (s t : Store) : Prop extends s.Extends t where
  names : ∀ f < s.frames.size, ∀ name, (s.local? f name).isSome = true →
    (t.local? f name).isSome = true

theorem Widens.refl (s : Store) : s.Widens s := ⟨.refl s, fun _ _ _ => id⟩

theorem Widens.trans {u : Store} (h : s.Widens t) (k : t.Widens u) : s.Widens u :=
  ⟨h.toExtends.trans k.toExtends, fun f lt name known =>
    k.names f (Nat.lt_of_lt_of_le lt h.size) name (h.names f lt name known)⟩

/-- A name that is in view stays so. -/
theorem Widens.contains (h : s.Widens t) (lt : f < s.frames.size)
    (known : s.contains f name = true) : t.contains f name = true := by
  rw [contains_eq, get?, List.findSome?_isSome_iff] at known ⊢
  rw [h.chain_eq lt]
  obtain ⟨g, above, found⟩ := known
  exact ⟨g, above, h.names g (Nat.lt_of_le_of_lt (chain_subset above).1 lt) name found⟩

theorem lt_of_local? (found : s.local? f name = some v) : f < s.frames.size := by
  by_contra large
  rw [local?, bindings_of_le (Nat.le_of_not_lt large)] at found
  cases found

theorem marked_of_local? {μ : Mark} (found : s.local? f name = some v) (mem : μ ∈ v.marks) :
    μ ∈ s.marked f := by
  obtain ⟨before, after, bindings, -⟩ := List.lookup_eq_some_iff.mp found
  refine Value.marks_subset (List.mem_map.mpr ⟨(name, v), ?_, rfl⟩) mem
  rw [bindings]
  exact List.mem_append_right _ List.mem_cons_self

theorem local?_set (lt : f < s.frames.size) (name other : String) (v : Value) :
    (s.set f name v).local? f other = if other = name then some v else s.local? f other := by
  rw [local?, bindings_set v lt, Association.lookup_put]
  rfl

theorem local?_set_of_ne (ne : g ≠ f) (name other : String) (v : Value) :
    (s.set f name v).local? g other = s.local? g other := by
  rw [local?, local?, bindings_congr (frames_set_of_ne v ne)]

/-- What is bound after a name was bound. -/
theorem local?_of_set {w : Value} {other : String}
    (found : (s.set f name v).local? g other = some w) :
    s.local? g other = some w ∨ g = f ∧ w = v := by
  by_cases same : g = f
  · subst same
    have lt : g < s.frames.size := by
      have lt := lt_of_local? found
      rwa [size_set] at lt
    rw [local?_set lt] at found
    split at found
    · exact .inr ⟨rfl, (Option.some.inj found).symm⟩
    · exact .inl found
  · rw [local?_set_of_ne same] at found
    exact .inl found

theorem widens_set (s : Store) (f : FrameId) (name : String) (v : Value) :
    s.Widens (s.set f name v) where
  toExtends := s.extends_set f name v
  names g lt other known := by
    by_cases same : g = f
    · subst same
      rw [local?_set lt]
      split
      · rfl
      · exact known
    · rwa [local?_set_of_ne same]

theorem widens_setAll (s : Store) (f : FrameId) (bindings : List (String × Value)) :
    s.Widens (s.setAll f bindings) := by
  induction bindings generalizing s with
  | nil => exact .refl s
  | cons b rest ih => exact (s.widens_set f b.1 b.2).trans (ih _)

theorem local?_of_setAll {bindings : List (String × Value)}
    (found : (s.setAll f bindings).local? g name = some v) :
    s.local? g name = some v ∨ g = f ∧ ∃ b ∈ bindings, b.2 = v := by
  induction bindings generalizing s with
  | nil => exact .inl found
  | cons b rest ih =>
      rcases ih found with before | ⟨same, c, mem, eq⟩
      · exact (local?_of_set before).imp_right fun ⟨same, eq⟩ =>
          ⟨same, b, List.mem_cons_self, eq.symm⟩
      · exact .inr ⟨same, c, List.mem_cons_of_mem _ mem, eq⟩

/-- All names that are bound one after another have a meaning. -/
theorem names_setAll (lt : f < s.frames.size) {bindings : List (String × Value)}
    (mem : name ∈ bindings.map (·.1)) : ((s.setAll f bindings).local? f name).isSome = true := by
  induction bindings generalizing s with
  | nil => exact nomatch mem
  | cons b rest ih =>
      have lt' : f < (s.set f b.1 b.2).frames.size := by rwa [size_set]
      rcases List.mem_cons.mp mem with rfl | mem
      · refine (widens_setAll _ f rest).names f lt' b.1 ?_
        rw [local?_set lt, if_pos rfl]
        rfl
      · exact ih lt' mem

theorem local?_alloc (s : Store) (parent : Option FrameId) (f : FrameId) (name : String) :
    (s.alloc parent).1.local? f name = s.local? f name := by
  by_cases lt : f < s.frames.size
  · rw [local?, local?, bindings_congr (frames_alloc_of_lt parent lt)]
  · rw [local?, local?, bindings_of_le (Nat.le_of_not_lt lt)]
    by_cases new : f = s.frames.size
    · subst new
      rw [bindings_alloc]
    · have large : (s.alloc parent).1.frames.size ≤ f := by
        rw [size_alloc]
        exact Nat.lt_of_le_of_ne (Nat.le_of_not_lt lt) (Ne.symm new)
      rw [bindings_of_le large]

theorem widens_alloc (s : Store) (parent : Option FrameId) : s.Widens (s.alloc parent).1 where
  size := by
    rw [size_alloc]
    exact Nat.le_succ _
  parent f lt := parent?_congr (frames_alloc_of_lt parent lt)
  names f _ name known := by rwa [local?_alloc]

/-- A frame stays alive. -/
theorem Extends.alive_iff (h : s.Extends t) {owners : List FrameId}
    (owned : ∀ o ∈ owners, o < s.frames.size) :
    t.alive owners f = true ↔ s.alive owners f = true := by
  rw [Store.alive_iff, Store.alive_iff]
  refine exists_congr fun o => and_congr_right fun mem => ?_
  rw [h.chain_eq (owned o mem)]

end Store

/-! ## What a session can get hold of -/

namespace Machine

/-- A handle of the session keeps the frame. -/
def Keeps (m : Machine σ) (f : FrameId) : Prop := m.common.store.alive m.session.handles f = true

/-- The home of a function, if it has one, is captured. -/
def Houses (m : Machine σ) (v : Value) : Prop :=
  ∀ params body f, v = .closure params body (some f) → f ∈ m.session.captured

/-- A frame in which the session can run something. -/
def Enters (m : Machine σ) (f : FrameId) : Prop := f ∈ m.session.ambient :: m.session.running

end Machine

/-- What is good stays good when frames are added and names are bound. -/
def Lasting (good : Store → Value → Prop) : Prop :=
  ∀ ⦃s t v⦄, s.Widens t → good s v → good t v

/-- A value that a session may get hold of. -/
structure Machine.Fits (good : Store → Value → Prop) (m : Machine σ) (v : Value) : Prop where
  housed : m.Houses v
  good : good m.common.store v

/-- All values that a session can get hold of are good and have captured homes, those apart that
have hidden names. -/
structure Machine.Tends (hidden : String → Prop) (good : Store → Value → Prop) (m : Machine σ) :
    Prop where
  owned : ∀ o ∈ m.session.handles, o < m.common.store.frames.size
  stack : ∀ v ∈ m.session.stack, m.Fits good v
  bound : ∀ f, m.Keeps f → ∀ name v, ¬ hidden name → m.common.store.local? f name = some v →
    m.Fits good v

namespace Machine

variable {hidden : String → Prop} {good : Store → Value → Prop} {m m' : Machine σ}
  {f g scope : FrameId} {name : String} {v : Value} {vs : List Value}

theorem keeps_of_mem (mem : f ∈ m.session.handles) : m.Keeps f :=
  Store.alive_iff.mpr ⟨f, mem, Store.mem_chain_self _ _⟩

theorem Enters.mem (h : m.Enters f) : f ∈ m.session.handles := List.mem_append_right _ h

theorem Enters.keeps (h : m.Enters f) : m.Keeps f := keeps_of_mem h.mem

theorem enters_ambient (m : Machine σ) : m.Enters m.session.ambient := List.mem_cons_self

theorem Keeps.chain (h : m.Keeps f) (above : g ∈ m.common.store.chain f) : m.Keeps g := by
  obtain ⟨o, owns, mem⟩ := Store.alive_iff.mp h
  exact Store.alive_iff.mpr ⟨o, owns, (Store.chain_subset mem).2 above⟩

theorem Keeps.alive (h : m.Keeps f) : m.alive f = true := by
  obtain ⟨o, owns, mem⟩ := Store.alive_iff.mp h
  exact Store.alive_iff.mpr ⟨o, List.mem_append_left _ owns, mem⟩

/-- A home is not forgotten while a function is known that was made there. -/
theorem captured_of_knows (mem : f ∈ m.session.captured) (known : (m.capture g).Knows (.home f)) :
    f ∈ (m.capture g).session.captured := by
  by_contra gone
  obtain ⟨-, unknown, -⟩ := forgotten (List.mem_append_left [g] mem) gone
  exact unknown known

/-- The frame in which a function is made is captured. -/
theorem Lives.captured (lives : m.Lives f) : f ∈ (m.capture f).session.captured := by
  by_contra gone
  have still : (m.capture f).Lives f := by rwa [Lives, m.common_capture, m.roots_capture]
  obtain ⟨dead, -⟩ := forgotten (List.mem_append_right _ (List.mem_singleton_self f)) gone
  exact absurd still.alive (Bool.eq_false_iff.mp dead)

/-- Making a function gives the session no handle that it did not have. -/
theorem handles_capture (enters : m.Enters scope) :
    (m.capture scope).session.handles ⊆ m.session.handles := by
  intro o owns
  rcases m.capture_cases scope with ⟨-, same⟩ | ⟨captured, _, sub, same⟩
  · rwa [same] at owns
  · rw [same] at owns
    rcases List.mem_append.mp owns with mem | own
    · rcases List.mem_append.mp (sub mem) with mem | last
      · exact List.mem_append_left _ mem
      · rw [List.mem_singleton.mp last]
        exact enters.mem
    · exact List.mem_append_right _ own

theorem keeps_of_capture (enters : m.Enters scope) (kept : (m.capture scope).Keeps g) :
    m.Keeps g := by
  obtain ⟨o, owns, mem⟩ := Store.alive_iff.mp kept
  exact Store.alive_iff.mpr ⟨o, m.handles_capture enters owns, m.common_capture scope ▸ mem⟩

/-- In the frame of a function nothing is kept but this frame and what was kept before. -/
theorem keeps_of_called {parent : FrameId} {bindings : List (String × Value)}
    (owned : ∀ o ∈ m.session.handles, o < m.common.store.frames.size)
    (lt : parent < m.common.store.frames.size) (kept : m.Keeps parent)
    (inner : ((m.framed parent bindings).enter.hold m.common.store.frames.size).Keeps g) :
    g = m.common.store.frames.size ∨ m.Keeps g := by
  have extend := m.extends_framed parent bindings
  obtain ⟨o, owns, mem⟩ := Store.alive_iff.mp inner
  change g ∈ (m.framed parent bindings).common.store.chain o at mem
  by_cases new : o = m.common.store.frames.size
  · subst new
    rw [Store.chain_of_some (m.parent?_framed parent bindings) lt, List.mem_cons,
      extend.chain_eq lt] at mem
    exact mem.imp_right kept.chain
  · simp only [Session.handles, Machine.hold, Machine.enter, List.mem_append, List.mem_cons] at owns
    have before : o ∈ m.session.handles := by
      simp only [Session.handles, List.mem_append, List.mem_cons]
      exact owns.imp_right (Or.imp_right fun own => own.resolve_left new)
    rw [extend.chain_eq (owned o before)] at mem
    exact .inr (Store.alive_iff.mpr ⟨o, before, mem⟩)

/-- A function without a home has none that would have to be captured. -/
theorem houses_plain (plain : ∀ params body f, v ≠ .closure params body (some f)) : m.Houses v :=
  fun params body f same => absurd same (plain params body f)

/-- What a function is called around, once its home is captured. -/
theorem Houses.around_eq {params : List String} {body : Tree} {home : Option FrameId}
    (houses : m.Houses (.closure params body home)) : m.around home scope = home.getD scope := by
  cases home with
  | none => rfl
  | some f =>
      have kept := keeps_of_mem (List.mem_append_left _ (houses params body f rfl))
      exact if_pos kept.alive

theorem Houses.keeps_around {params : List String} {body : Tree} {home : Option FrameId}
    (houses : m.Houses (.closure params body home)) (enters : m.Enters scope) :
    m.Keeps (home.getD scope) := by
  cases home with
  | none => exact enters.keeps
  | some f => exact keeps_of_mem (List.mem_append_left _ (houses params body f rfl))

namespace Tends

variable (h : m.Tends hidden good)

include h

theorem lt_of_keeps (kept : m.Keeps f) : f < m.common.store.frames.size := by
  obtain ⟨o, owns, mem⟩ := Store.alive_iff.mp kept
  exact Nat.lt_of_le_of_lt (Store.chain_subset mem).1 (h.owned o owns)

/-- What a name means in a frame that is kept. -/
theorem get? (kept : m.Keeps f) (shown : ¬ hidden name)
    (found : m.common.store.get? f name = some v) :
    m.Fits good v := by
  obtain ⟨g, above, found⟩ := List.exists_of_findSome?_eq_some found
  exact h.bound g (kept.chain above) name v shown found

theorem withStack (fits : ∀ v ∈ vs, m.Fits good v) : (m.withStack vs).Tends hidden good where
  owned := h.owned
  stack v mem := ⟨(fits v mem).housed, (fits v mem).good⟩
  bound f kept name v shown found :=
    ⟨(h.bound f kept name v shown found).housed, (h.bound f kept name v shown found).good⟩

theorem push (fits : m.Fits good v) : (m.push v).Tends hidden good :=
  h.withStack (List.forall_mem_cons.mpr ⟨fits, h.stack⟩)

theorem pushAll (fits : ∀ v ∈ vs, m.Fits good v) : (m.pushAll vs).Tends hidden good := by
  refine h.withStack fun v mem => ?_
  rcases List.mem_append.mp mem with mem | mem
  · exact fits v (List.mem_reverse.mp mem)
  · exact h.stack v mem

/-- Fewer frames are kept, or what is shared is changed where the session does not look. -/
theorem narrowed {session : Session} {common : Common σ} (stack : session.stack = m.session.stack)
    (captured : session.captured = m.session.captured) (fewer : session.handles ⊆ m.session.handles)
    (store : common.store = m.common.store) : (Machine.mk session common).Tends hidden good := by
  have fits : ∀ {v}, m.Fits good v → (Machine.mk session common).Fits good v := fun fits =>
    ⟨fun params body f same => captured ▸ fits.housed params body f same, store ▸ fits.good⟩
  refine ⟨fun o mem => store ▸ h.owned o (fewer mem),
    fun v mem => fits (h.stack v (stack ▸ mem)), ?_⟩
  intro f kept name v shown found
  obtain ⟨o, owns, mem⟩ := Store.alive_iff.mp kept
  have kept : m.Keeps f := Store.alive_iff.mpr ⟨o, fewer owns, store ▸ mem⟩
  exact fits (h.bound f kept name v shown (store ▸ found))

theorem numbered (serial : Nat) : (m.numbered serial).Tends hidden good :=
  h.narrowed rfl rfl (List.Subset.refl _) rfl

theorem enter : m.enter.Tends hidden good := h.narrowed rfl rfl (List.Subset.refl _) rfl

theorem leave : m.leave.Tends hidden good := h.narrowed rfl rfl (List.Subset.refl _) rfl

theorem letGo : m.letGo.Tends hidden good := by
  refine h.narrowed rfl rfl (fun o mem => ?_) rfl
  simp only [Session.handles, List.mem_append, List.mem_cons] at mem ⊢
  exact mem.imp_right (Or.imp_right List.mem_of_mem_tail)

theorem bind (lasting : Lasting good) (fits : m.Fits good v) (f : FrameId) (name : String) :
    (m.bind f name v).Tends hidden good := by
  have widens := m.common.store.widens_set f name v
  have fits_after : ∀ {w}, m.Fits good w → (m.bind f name v).Fits good w := fun fits =>
    ⟨fits.housed, lasting widens fits.good⟩
  refine ⟨fun o mem => Nat.lt_of_lt_of_le (h.owned o mem) widens.size,
    fun w mem => fits_after (h.stack w mem), fun g kept other w shown found => ?_⟩
  have kept : m.Keeps g := (widens.toExtends.alive_iff h.owned).mp kept
  rcases Store.local?_of_set found with before | ⟨-, rfl⟩
  · exact fits_after (h.bound g kept other w shown before)
  · exact fits_after fits

/-- A function is called: its body gets a new frame. -/
theorem framed (lasting : Lasting good) (parent : FrameId) {bindings : List (String × Value)}
    (fits : ∀ b ∈ bindings, m.Fits good b.2) : (m.framed parent bindings).Tends hidden good ∧
      ∀ v, m.Fits good v → (m.framed parent bindings).Fits good v := by
  have widens : m.common.store.Widens (m.framed parent bindings).common.store :=
    (m.common.store.widens_alloc _).trans (Store.widens_setAll _ _ _)
  have fits_after : ∀ v, m.Fits good v → (m.framed parent bindings).Fits good v := fun _ fits =>
    ⟨fits.housed, lasting widens fits.good⟩
  refine ⟨⟨fun o mem => Nat.lt_of_lt_of_le (h.owned o mem) widens.size,
    fun v mem => fits_after v (h.stack v mem), fun g kept name v shown found => ?_⟩, fits_after⟩
  have kept : m.Keeps g := (widens.toExtends.alive_iff h.owned).mp kept
  rcases Store.local?_of_setAll found with before | ⟨-, b, mem, rfl⟩
  · rw [Store.local?_alloc] at before
    exact fits_after v (h.bound g kept name v shown before)
  · exact fits_after _ (fits b mem)

/-- The body of a function runs in its frame, which is kept until the end. -/
theorem called (lasting : Lasting good) {parent : FrameId} (kept : m.Keeps parent)
    {bindings : List (String × Value)} (fits : ∀ b ∈ bindings, m.Fits good b.2) :
    ((m.framed parent bindings).enter.hold m.common.store.frames.size).Tends hidden good := by
  obtain ⟨framed, fits_after⟩ := h.framed lasting parent fits
  have size := m.size_framed parent bindings
  have extend := m.extends_framed parent bindings
  have lt := h.lt_of_keeps kept
  have fits_held : ∀ {v}, (m.framed parent bindings).Fits good v →
      ((m.framed parent bindings).enter.hold m.common.store.frames.size).Fits good v := fun fits =>
    ⟨fits.housed, fits.good⟩
  refine ⟨fun o mem => ?_, fun v mem => fits_held (framed.stack v mem),
    fun g kept' name v shown found => ?_⟩
  · simp only [Session.handles, Machine.hold, Machine.enter, List.mem_append, List.mem_cons] at mem
    by_cases new : o = m.common.store.frames.size
    · rw [new]
      exact Nat.lt_of_lt_of_eq (Nat.lt_succ_self _) size.symm
    · refine framed.owned o ?_
      simp only [Session.handles, List.mem_append, List.mem_cons]
      exact mem.imp_right (Or.imp_right fun own => own.resolve_left new)
  · rcases keeps_of_called h.owned lt kept kept' with rfl | kept'
    · -- the frame binds nothing but the arguments
      rcases Store.local?_of_setAll found with before | ⟨-, b, among, rfl⟩
      · rw [Store.local?_alloc] at before
        exact absurd (Store.lt_of_local? before) (Nat.lt_irrefl _)
      · exact fits_held (fits_after _ (fits b among))
    · exact fits_held (framed.bound g ((extend.alive_iff h.owned).mpr kept') name v shown found)

/-- A function is made.  The sweep that this may bring about forgets no home of another one. -/
theorem capture (enters : m.Enters scope) : (m.capture scope).Tends hidden good ∧
    scope ∈ (m.capture scope).session.captured := by
  have common := m.common_capture scope
  have handles := m.handles_capture enters
  -- a home is forgotten only if no function was made there that is still known
  have still : ∀ {v}, m.Fits good v →
      (∀ μ ∈ v.marks, (m.capture scope).Knows μ) → (m.capture scope).Fits good v :=
        fun fits known =>
    ⟨fun params body f same => captured_of_knows (fits.housed params body f same)
      (known _ (by simp [same, Value.marks])), common.symm ▸ fits.good⟩
  have lives : m.Lives scope := Store.alive_iff.mpr
    ⟨scope, List.mem_append_left _ enters, Store.mem_chain_self _ _⟩
  refine ⟨⟨fun o owns => common.symm ▸ h.owned o (handles owns), fun v mem => ?_, ?_⟩,
    lives.captured⟩
  · exact still (h.stack v (m.stack_capture scope ▸ mem)) fun μ marked =>
      .inl (Value.marks_subset mem marked)
  · intro g kept name v shown found
    have before := h.bound g (keeps_of_capture enters kept) name v shown (common ▸ found)
    exact still before fun μ marked =>
      Machine.known_of_marked kept.alive (Store.marked_of_local? found marked)

end Tends

end Machine

end PeerScript
