import PeerScript.Proofs.Moves.Follow

/-!
# Tasks are chains of moves

The events of a task are what happens to functions while it runs: `treeEvents`, `callEvents` and
`methodEvents` go the way of `evalTree`, `callValue` and `runMethod`, and `watch` goes into the
invocations as `inside` does.

An object may do anything to what is shared, so something has to be known of it.  A method is `Tidy`
if the functions that it hands to the machine are its arguments or are found in what the machine
holds; what a method has in hand does not outlive what it runs.  Methods are only asked for this on
machines that are `Fit`, and behind something that they have run only on those to which it can have
led.
-/

set_option autoImplicit false

namespace PeerScript

variable {σ α : Type}

/-! ## Events -/

/-- What happens to functions inside of an invocation. -/
structure Watch (σ : Type) where
  tree : Tree → FrameId → Machine σ → List Event
  method : Method σ → Machine σ → List Event

/-- What happens to functions when a value is called. -/
def callEvents (w : Watch σ) (callee : Value) (args : List Value) (scope : FrameId)
    (m : Machine σ) : List Event :=
  match callee with
  | .closure params body home =>
      if params.isEmpty ∨ params.length = args.length then
        let frame := m.common.store.frames.size
        let pushed := if params.isEmpty then m.pushAll args else m
        .called home (m.around home scope) frame ::
          if invocationLimit ≤ m.session.depth then []
          else w.tree body frame
            ((pushed.framed (m.around home scope) (params.zip args)).enter.hold frame)
      else []
  | _ => []

section Events

variable (host : Host σ)

/-- What happens to functions when a path is called. -/
def pathEvents (w : Watch σ) (path : Path) (args : List Value) (scope : FrameId) (m : Machine σ) :
    List Event :=
  match path.segments.getLast?, path.segments.dropLast with
  | none, _ => []
  | some name, [] => (lookup name scope).after (fun callee => callEvents w callee args scope) m
  | some method, receiver =>
      (resolve host ⟨receiver⟩ scope).after (fun v m =>
        match v with
        | .object o =>
            if invocationLimit ≤ m.session.depth then []
            else w.method (host.method o method args) m.enter
        | _ => []) m

variable (levels : Nat) (w : Watch σ)

mutual

/-- What happens to functions while a tree runs. -/
def treeEvents : Tree → FrameId → Machine σ → List Event
  | .literal (.closure _ _ _), scope, _ => [.made scope]
  | .literal _, _, _ => []
  | .reference _, _, _ => []
  | .call .sequence args, scope, m => treesEvents args scope m
  | .call head args, scope, m =>
      treesEvents args scope m ++
        (evalTrees host (inside host levels) args scope).after (fun _ =>
          (Run.splitOff m.session.stack.length).after fun values m =>
            match head with
            | .invoke path => pathEvents host w path values scope m
            | _ => []) m

/-- What happens to functions while trees run one after another. -/
def treesEvents : List Tree → FrameId → Machine σ → List Event
  | [], _, _ => []
  | t :: rest, scope, m =>
      treeEvents t scope m ++
        (evalTree host (inside host levels) t scope).after (fun _ => treesEvents rest scope) m

end

/-- What happens to functions while a method runs. -/
def methodEvents : Method σ → Machine σ → List Event
  | .finish _, _ | .stuck, _ => []
  | .push v next, m => methodEvents next (m.push v)
  | .call callee name args next, m =>
      callEvents w callee args m.session.ambient m ++
        (Run.caught ((level host levels).call callee name args m.session.ambient)).after
          (fun result => methodEvents (next result)) m
  | .run tree next, m =>
      treeEvents host levels w tree m.session.ambient m ++
        (Run.caught ((level host levels).run tree m.session.ambient)).after
          (fun result => methodEvents (next result)) m
  | .runIn tree scope next, m =>
      treeEvents host levels w tree scope (m.hold scope) ++
        (Run.caught (holding scope ((level host levels).run tree scope))).after
          (fun result => methodEvents (next result)) m
  | .look next, m => methodEvents (next m.session m.whole) m
  | .change act next, m => methodEvents next (m.changed (act m.whole))

end Events

/-- What happens to functions inside of an invocation when at most `levels` more may nest. -/
def watch (host : Host σ) : Nat → Watch σ
  | 0 => ⟨fun _ _ _ => [], fun _ _ => []⟩
  | levels + 1 =>
      ⟨treeEvents host levels (watch host levels), methodEvents host levels (watch host levels)⟩

/-! ## Tidy objects -/

/-- A tree that a machine can run: no function in it has a home, and the instances in it exist. -/
def Machine.Accepts (m : Machine σ) (t : Tree) : Prop :=
  ∀ μ ∈ t.marks, ∃ n < m.common.serial, μ = .serial n

/-- The method hands the machine what it has in hand or what the machine holds, runs trees in frames
that are alive and may be written, and changes what is shared as others may. -/
def Method.Tidy (writable : FrameId → Prop) : Method σ → Machine σ → List Mark → Prop
  | .finish (.ok (some v)), m, hand => ∀ μ ∈ v.marks, m.Learns hand μ
  | .finish (.ok none), _, _ | .finish (.error _), _, _ | .stuck, _, _ => True
  | .push v next, m, hand => (∀ μ ∈ v.marks, m.Learns hand μ) ∧ next.Tidy writable (m.push v) hand
  | .call callee _ args next, m, hand =>
      (∀ μ ∈ callee.marks ++ Value.marksAll args, m.Learns hand μ) ∧
        ∀ result m', m.Returns m' → m'.Fit writable → (next result).Tidy writable m' []
  | .run tree next, m, _ =>
      m.Accepts tree ∧ writable m.session.ambient ∧
        ∀ result m', m.Returns m' → m'.Fit writable → (next result).Tidy writable m' []
  | .runIn tree scope next, m, _ =>
      m.Accepts tree ∧ (m.alive scope = true ∧ writable scope) ∧
        ∀ result m', m.Returns m' → m'.Fit writable → (next result).Tidy writable m' []
  | .look next, m, hand => (next m.session m.whole).Tidy writable m hand
  | .change act next, m, hand =>
      (m.whole.Leads (act m.whole) ∧ ∀ f < m.common.store.frames.size, ¬ writable f →
        (act m.whole).store.bindings f = m.common.store.bindings f) ∧
        next.Tidy writable (m.changed (act m.whole)) hand

/-- Members are plain data, and on machines that are fit methods are tidy. -/
structure Host.IsTidy (writable : FrameId → Prop) (host : Host σ) : Prop where
  member : ∀ world o name v, host.member world o name = some v → v.marks = []
  method : ∀ o name args (m : Machine σ), m.Fit writable → (∀ μ ∈ Value.marksAll args, m.Made μ) →
    (host.method o name args).Tidy writable m (Value.marksAll args)

/-! ## Invocations -/

variable {writable : FrameId → Prop} {m m' : Machine σ} {hand : List Mark} {events : List Event}
  {left : α → List Mark}

/-- Moves that are no events, in front of a run and behind it, that give back what they have
taken. -/
theorem Reaches.between {m₁ m₂ m₃ : Machine σ} {left : List Mark}
    (before : ∀ log, Move writable ⟨m, hand, log⟩ ⟨m₁, hand, log⟩)
    (inner : Reaches writable m₁ hand events m₂ left)
    (after : ∀ log, Move writable ⟨m₂, left, log⟩ ⟨m₃, left, log⟩) (returns : m.Returns m₃) :
    Reaches writable m hand events m₃ left :=
  ⟨returns, fun log => (Relation.ReflTransGen.head (before log) (inner.moves log)).tail (after _)⟩

theorem Machine.Returns.leave (h : m.enter.Returns m') : m.Returns m'.leave where
  registry := h.registry
  ambient := h.ambient
  running := h.running
  depth := congrArg (· - 1) h.depth
  held := h.held
  watched := h.watched

theorem Machine.Returns.letGo {frame : FrameId} (h : (m.hold frame).Returns m') :
    m.Returns m'.letGo where
  registry := h.registry
  ambient := h.ambient
  running := congrArg List.tail h.running
  depth := h.depth
  held := h.held
  watched := h.watched

theorem Reaches.counted {left : List Mark} (h : Reaches writable m.enter hand events m' left) :
    Reaches writable m hand events m'.leave left :=
  .between (fun _ => .count (List.Subset.refl _)) h (fun _ => .count (List.Subset.refl _))
    h.returns.leave

theorem Reaches.letGo {frame : FrameId} {left : List Mark}
    (before : ∀ log, Move writable ⟨m, hand, log⟩ ⟨m.hold frame, hand, log⟩)
    (h : Reaches writable (m.hold frame) hand events m' left) :
    Reaches writable m hand events m'.letGo left :=
  .between before h (fun _ => .count (List.tail_sublist _).subset)
    h.returns.letGo

namespace Follows

theorem counted {act : Run σ α} (h : Follows writable m.enter hand act events left) :
    Follows writable m hand (counted act) events left := by
  have step := counted_eq act m
  rw [Follows] at h
  cases ran : act m.enter with
  | ok a m' =>
      rw [ran] at step h
      exact .ok step h.counted
  | error stop m' =>
      rw [ran] at step h
      exact .error step h.counted

theorem holding {frame : FrameId} {act : Run σ α} (alive : m.alive frame = true)
    (h : Follows writable (m.hold frame) hand act events left) :
    Follows writable m hand (holding frame act) events left := by
  have step := holding_eq frame act m
  rw [Follows] at h
  cases ran : act (m.hold frame) with
  | ok a m' =>
      rw [ran] at step h
      exact .ok step (h.letGo fun _ => .hold alive)
  | error stop m' =>
      rw [ran] at step h
      exact .error step (h.letGo fun _ => .hold alive)

/-- An invocation in a frame of its own. -/
theorem inFrame {act r : Run σ α} {m₁ : Machine σ} {frame : FrameId} {hand' : List Mark}
    {events' : List Event} (step : r m = PeerScript.counted (PeerScript.holding frame act) m₁)
    (returns : m.Returns m₁)
    (before : ∀ log, Moves writable ⟨m, hand, log⟩ ⟨m₁.enter.hold frame, hand', log ++ events⟩)
    (h : Follows writable (m₁.enter.hold frame) hand' act events' left) :
    Follows writable m hand r (events ++ events') left := by
  have finish : ∀ {m' : Machine σ} {left : List Mark},
      Reaches writable (m₁.enter.hold frame) hand' events' m' left →
      Reaches writable m hand (events ++ events') m'.letGo.leave left := fun {m' left} h => {
    returns := returns.trans (Machine.Returns.leave h.returns.letGo)
    moves log := by
      have through := (before log).trans (h.moves _)
      rw [List.append_assoc] at through
      exact through.tail (.count (List.tail_sublist _).subset) }
  rw [counted_eq, holding_eq] at step
  rw [Follows] at h
  cases ran : act (m₁.enter.hold frame) with
  | ok a m' =>
      rw [ran] at step h
      exact .ok step (finish h)
  | error stop m' =>
      rw [ran] at step h
      exact .error step (finish h)

theorem caught {r : Run σ Unit} {left : Unit → List Mark}
    (h : Follows writable m hand r events left) :
    Follows writable m hand (Run.caught r) events fun _ => [] := by
  have step := Run.caught_eq r m
  rw [Follows] at h
  cases ran : r m with
  | ok a m' =>
      rw [ran] at step h
      refine .ok step ?_
      have forgotten := h.trans (.forget m' (left a))
      rwa [List.append_nil] at forgotten
  | error stop m' =>
      rw [ran] at step h
      cases stop with
      | failed fault => exact .ok step h
      | broken => exact .error step h
      | unfinished => exact .error step h

end Follows

/-- What an invocation runs, if it starts at all. -/
theorem Follows.invocation {host : Host σ} {levels : Nat} {act : Inside σ → Run σ α}
    (none : levels = 0 → events = [])
    (h : ∀ fewer, levels = fewer + 1 →
      Follows writable m.enter hand (act (level host fewer)) events left) :
    Follows writable m hand (invocation (inside host levels) act)
      (if invocationLimit ≤ m.session.depth then [] else events) left := by
  have step := invocation_eq (inside host levels) act m
  by_cases deep : invocationLimit ≤ m.session.depth
  · rw [if_pos deep] at step ⊢
    exact .error step (.forget m hand)
  · rw [if_neg deep] at step ⊢
    cases levels with
    | zero =>
        rw [none rfl]
        exact .error step (.forget m hand)
    | succ fewer =>
        have inner := (h fewer rfl).counted
        rw [Follows] at inner ⊢
        rw [step]
        exact inner

/-! ## Calls -/

/-- A body runs in the frame that was made for it, if one more invocation may nest. -/
theorem inFrame_eq (host : Host σ) (levels : Nat) (parent : FrameId)
    (bindings : List (String × Value)) (body : Tree) (m : Machine σ) :
    (newFrame parent bindings >>= fun frame =>
        invocation (inside host levels) fun level => holding frame (level.run body frame)) m =
      invocation (inside host levels) (fun level =>
        holding m.common.store.frames.size (level.run body m.common.store.frames.size))
        (m.framed parent bindings) := rfl

theorem frameAround_eq (home : Option FrameId) (scope : FrameId) :
    frameAround home scope m = .ok (m.around home scope) m := by
  cases home with
  | none => rfl
  | some f =>
      have step : frameAround (some f) scope m =
          (if m.alive f then pure f else pure scope : Run σ FrameId) m := rfl
      rw [step]
      by_cases alive : m.alive f = true
      · rw [if_pos alive, Machine.around, if_pos alive]
        rfl
      · rw [if_neg alive, Machine.around, if_neg alive]
        rfl

/-- The body of a function runs in a new frame, behind the arguments if it has no names for them. -/
theorem callValue_closure (host : Host σ) (inside : Option (Inside σ)) (params : List String)
    (body : Tree) (home : Option FrameId) (name : String) (args : List Value) (scope : FrameId) :
    callValue host inside (.closure params body home) name args scope m =
      if params.isEmpty ∨ params.length = args.length then
        (newFrame (m.around home scope) (params.zip args) >>= fun frame =>
          invocation inside fun level => holding frame (level.run body frame))
          (if params.isEmpty then m.pushAll args else m)
      else .error (.failed (.arity name params.length args.length)) m := by
  have step : callValue host inside (.closure params body home) name args scope m =
      (if params.isEmpty then
        modify (·.pushAll args) >>= fun _ =>
          newFrame (m.around home scope) (params.zip args) >>= fun frame =>
            invocation inside fun level => holding frame (level.run body frame)
      else if params.length ≠ args.length then
        Run.fail (.arity name params.length args.length) >>= fun (_ : PUnit) =>
          newFrame (m.around home scope) (params.zip args) >>= fun frame =>
            invocation inside fun level => holding frame (level.run body frame)
      else
        newFrame (m.around home scope) (params.zip args) >>= fun frame =>
          invocation inside fun level => holding frame (level.run body frame)) m := by
    rw [callValue, Run.bind_of_ok (frameAround_eq home scope)]
  rw [step]
  by_cases noParams : params.isEmpty = true
  · rw [if_pos noParams, if_pos (.inl noParams), if_pos noParams]
    rfl
  · rw [if_neg noParams, if_neg noParams]
    by_cases enough : params.length = args.length
    · rw [if_neg (not_not_intro enough), if_pos (.inr enough)]
    · rw [if_pos enough, if_neg (not_or.mpr ⟨noParams, enough⟩)]
      rfl

theorem Machine.accepts_body {params : List String} {body : Tree} {home : Option FrameId}
    (made : ∀ μ ∈ (Value.closure params body home).marks, m.Made μ) : m.Accepts body := by
  intro μ mem
  have inner : m.Made μ.within :=
    made _ (List.mem_append_right _ (List.mem_map_of_mem mem))
  cases μ with
  | serial n => exact ⟨n, inner, rfl⟩
  | _ => exact inner.elim

theorem Machine.Accepts.made {t : Tree} (h : m.Accepts t) : ∀ μ ∈ t.marks, m.Made μ := by
  intro μ mem
  obtain ⟨n, lt, rfl⟩ := h μ mem
  exact lt

theorem Machine.Accepts.learns {t : Tree} (h : m.Accepts t) (hand : List Mark) :
    ∀ μ ∈ t.marks, m.Learns hand μ := by
  intro μ mem
  obtain ⟨n, lt, rfl⟩ := h μ mem
  exact .serial lt

theorem Reaches.accepts {left : List Mark} {t : Tree} (h : Reaches writable m hand events m' left)
    (accepts : m.Accepts t) : m'.Accepts t := by
  intro μ mem
  obtain ⟨n, lt, rfl⟩ := accepts μ mem
  exact ⟨n, Nat.lt_of_lt_of_le lt (h.moves []).serial_le, rfl⟩

variable (host : Host σ) (writable)

/-- Trees and methods are chains of moves with their events, when `levels` invocations may nest. -/
structure Followed (levels : Nat) : Prop where
  tree : ∀ (t : Tree) (scope : FrameId) (m : Machine σ), m.Ready writable scope → m.Accepts t →
    Follows writable m [] (evalTree host (inside host levels) t scope)
      (treeEvents host levels (watch host levels) t scope m) fun _ => []
  method : ∀ (act : Method σ) (m : Machine σ) (hand : List Mark), m.Fit writable →
    (∀ μ ∈ hand, m.Made μ) → act.Tidy writable m hand →
    Follows writable m hand (runMethod (level host levels) act)
      (methodEvents host levels (watch host levels) act m) fun v => Value.marksAll v.toList

variable {host writable}

section Levels

variable {levels : Nat} {scope : FrameId}

/-- The body of a function that is called. -/
theorem follows_body (below : ∀ fewer, levels = fewer + 1 → Followed writable host fewer)
    {body : Tree} {home : Option FrameId} {bindings : List (String × Value)}
    (fit : m.Fit writable) (lives : m.Lives scope) (made : ∀ μ ∈ hand, m.Made μ)
    (accepts : m.Accepts body) (owns : ∀ f, home = some f → .home f ∈ hand)
    (bound : ∀ b ∈ bindings, ∀ μ ∈ b.2.marks, m.Learns hand μ) :
    Follows writable m hand
      (newFrame (m.around home scope) bindings >>= fun frame =>
        invocation (inside host levels) fun level => holding frame (level.run body frame))
      (.called home (m.around home scope) m.common.store.frames.size ::
        if invocationLimit ≤ m.session.depth then []
        else (watch host levels).tree body m.common.store.frames.size
          ((m.framed (m.around home scope) bindings).enter.hold m.common.store.frames.size))
      fun _ => [] := by
  let frame := m.common.store.frames.size
  let framed := m.framed (m.around home scope) bindings
  have enters : ∀ m', m' = framed ∨ m' = framed.enter.hold frame → ∀ log,
      Move writable ⟨m, hand, log⟩ ⟨m', hand, log ++ [.called home (m.around home scope) frame]⟩ :=
    fun m' same _ => .call lives owns bound same
  have alone : Reaches writable m hand [.called home (m.around home scope) frame] framed [] :=
    ⟨⟨rfl, rfl, rfl, rfl, rfl, rfl⟩, fun log =>
      (Relation.ReflTransGen.single (enters framed (.inl rfl) log)).tail
        (.learn (List.forall_mem_nil _))⟩
  have step := inFrame_eq host levels (m.around home scope) bindings body m
  have depth : (m.framed (m.around home scope) bindings).session.depth = m.session.depth := rfl
  rw [invocation_eq, depth] at step
  by_cases deep : invocationLimit ≤ m.session.depth
  · rw [if_pos deep] at step ⊢
    exact .error step alone
  · rw [if_neg deep] at step ⊢
    cases levels with
    | zero => exact .error step alone
    | succ fewer =>
        let inner := framed.enter.hold frame
        have entered : inner.Ready writable frame := {
          toFit := Moves.fit (x := ⟨m, hand, []⟩) (.single (enters inner (.inr rfl) []))
            fit made
          lives := Store.alive_iff.mpr
            ⟨frame, by simp [inner, Machine.roots, Machine.hold], Store.mem_chain_self _ _⟩
          writes := fit.fresh frame (Nat.le_refl _) }
        have ran := (below fewer rfl).tree body frame inner entered accepts
        change Follows writable m hand _ ([.called home (m.around home scope) frame] ++
          treeEvents host fewer (watch host fewer) body frame inner) _
        refine .inFrame step ⟨rfl, rfl, rfl, rfl, rfl, rfl⟩ (fun log => ?_) ran
        exact (Relation.ReflTransGen.single (enters inner (.inr rfl) log)).tail
          (.learn (List.forall_mem_nil _))

theorem follows_call (below : ∀ fewer, levels = fewer + 1 → Followed writable host fewer)
    {callee : Value} {name : String} {args : List Value} (fit : m.Fit writable)
    (lives : m.Lives scope) (made : ∀ μ ∈ hand, m.Made μ) (owns : callee.marks ⊆ hand)
    (given : Value.marksAll args ⊆ hand) :
    Follows writable m hand (callValue host (inside host levels) callee name args scope)
      (callEvents (watch host levels) callee args scope m) fun _ => [] := by
  cases callee with
  | closure params body home =>
      have accepts : m.Accepts body := Machine.accepts_body fun μ mem => made μ (owns mem)
      have home_mem : ∀ f, home = some f → .home f ∈ hand := by
        rintro f rfl
        exact owns (by simp [Value.marks])
      have bound : ∀ b ∈ params.zip args, ∀ μ ∈ b.2.marks, m.Learns hand μ := fun b among μ mem =>
        .kept (given (Value.marks_subset (List.of_mem_zip among).2 mem))
      have step :=
        callValue_closure host (inside host levels) params body home name args scope (m := m)
      unfold callEvents
      dsimp only
      by_cases fits : params.isEmpty = true ∨ params.length = args.length
      · rw [if_pos fits] at step ⊢
        by_cases noParams : params.isEmpty = true
        · rw [if_pos noParams] at step ⊢
          have pushed : Reaches writable m hand [] (m.pushAll args) hand :=
            .pushAll fun μ mem => .kept (given mem)
          refine .resume pushed step ?_
          refine follows_body below ((pushed.moves []).fit fit made) (pushed.lives fit.owned lives)
            made accepts home_mem ?_
          exact fun b among μ mem =>
            .kept (given (Value.marks_subset (List.of_mem_zip among).2 mem))
        · rw [if_neg noParams] at step ⊢
          rw [Follows, step]
          exact follows_body below fit lives made accepts home_mem bound
      · rw [if_neg fits] at step ⊢
        exact .error step (.forget m hand)
  | native b =>
      refine (Builtin.follows_run host).bind_quiet fun v m' _ _ => ?_
      cases v with
      | none => exact .pure (List.forall_mem_nil _)
      | some v =>
          refine .push (fun μ mem => .kept ?_) (List.nil_subset _)
          simpa [Value.marksAll] using mem
  | _ => exact .fail _

theorem follows_path (tidy : host.IsTidy writable)
    (below : ∀ fewer, levels = fewer + 1 → Followed writable host fewer) {path : Path}
    {args : List Value} (fit : m.Fit writable) (lives : m.Lives scope) (made : ∀ μ ∈ hand, m.Made μ)
    (given : Value.marksAll args ⊆ hand) :
    Follows writable m hand (callPath host (inside host levels) path args scope)
      (pathEvents host (watch host levels) path args scope m) fun _ => [] := by
  obtain ⟨segments⟩ := path
  rcases segments.eq_nil_or_concat with rfl | ⟨receiver, last, rfl⟩
  · exact .fail _
  rw [callPath, pathEvents]
  simp only [List.concat_eq_append, List.getLast?_append, List.getLast?_singleton, Option.some_or,
    List.dropLast_concat]
  cases receiver with
  | nil =>
      refine (follows_lookup lives.alive last).bind fun callee m' found reached => ?_
      have made' := reached.made fit made
      exact follows_call below ((reached.moves []).fit fit made)
        (reached.lives fit.owned lives) made' (List.subset_append_left _ _)
        (List.subset_append_of_subset_right _ given)
  | cons first others =>
      refine (follows_resolve tidy.member lives.alive _).bind fun v m' found reached => ?_
      have fit' := (reached.moves []).fit fit made
      have made' := reached.made fit made
      have given' : Value.marksAll args ⊆ v.marks ++ hand :=
        List.subset_append_of_subset_right _ given
      cases v with
      | object o =>
          have called : Follows writable m' (Value.marksAll args)
              (invocation (inside host levels) fun level => runMethod level
                (host.method o last args))
              (if invocationLimit ≤ m'.session.depth then []
                else (watch host levels).method (host.method o last args) m'.enter)
              fun v => Value.marksAll v.toList := by
            refine .invocation (by rintro rfl; rfl) ?_
            rintro fewer rfl
            have given : ∀ μ ∈ Value.marksAll args, m'.Made μ := fun μ mem => made' μ (given' mem)
            exact (below fewer rfl).method _ m'.enter _ fit'.enter given
              (tidy.method o last args m'.enter fit'.enter given)
          refine .learn (fun μ mem => .kept (given' mem)) (called.bind_last fun v m₂ _ _ => ?_)
          cases v with
          | none => exact .pure (List.forall_mem_nil _)
          | some v =>
              refine .push (fun μ mem => .kept ?_) (List.nil_subset _)
              simpa [Value.marksAll] using mem
      | _ => exact .fail _

/-! ## Trees -/

theorem follows_splitOff (base : Nat) :
    Follows writable m hand (Run.splitOff base) [] Value.marksAll := by
  have step := Run.splitOff_eq base (m := m)
  split at step
  · exact .error step (.forget m hand)
  · refine .ok step ?_
    have taken : ∀ {vs : List Value}, vs ⊆ m.session.stack →
        ∀ {hand : List Mark}, ∀ μ ∈ Value.marksAll vs, m.Learns hand μ := fun sub _ =>
      m.learns_stack sub
    have learnt : Reaches writable m hand [] m (Value.marksAll
        (m.session.stack.take (m.session.stack.length - base)).reverse) :=
      .learn (taken fun v mem => List.take_subset _ _ (List.mem_reverse.mp mem))
    exact learnt.trans (.stack (taken (List.drop_subset _ _)))

/-- What the heads do that call nothing. -/
theorem follows_dispatch (tidy : host.IsTidy writable)
    (below : ∀ fewer, levels = fewer + 1 → Followed writable host fewer) {head : Head}
    {values : List Value} (ready : m.Ready writable scope) (made : ∀ μ ∈ hand, m.Made μ)
    (given : Value.marksAll values ⊆ hand) :
    Follows writable m hand (dispatch host (inside host levels) head values scope)
      (match head with
        | .invoke path => pathEvents host (watch host levels) path values scope m
        | _ => []) fun _ => [] := by
  have learns : ∀ {vs : List Value}, vs ⊆ values → ∀ μ ∈ Value.marksAll vs, m.Learns hand μ :=
    fun sub μ mem => .kept (given (Value.marksAll_subset sub mem))
  cases head with
  | invoke path => exact follows_path tidy below ready.toFit ready.lives made given
  | sequence =>
      refine .modified ?_
      exact (Reaches.pushAll (learns (List.Subset.refl _))).trans (.forget _ _)
  | list =>
      refine .push (fun μ mem => ?_) (List.nil_subset _)
      rw [Value.marks] at mem
      exact learns (List.Subset.refl _) μ mem
  | op operator =>
      rw [dispatch]
      cases applied : operator.apply values with
      | error fault => exact .fail _
      | ok v =>
          refine .push (fun μ mem => ?_) (List.nil_subset _)
          exact .kept (given (Operator.apply_marks applied mem))
  | bind name =>
      rw [dispatch]
      cases last : values.getLast? with
      | none => exact .fail _
      | some v =>
          have among : v ∈ values := List.mem_of_getLast? last
          have pushed : Reaches writable m hand [] (m.pushAll values.dropLast) hand :=
            .pushAll (learns (List.dropLast_subset _))
          have bound : Reaches writable (m.pushAll values.dropLast) hand []
              ((m.pushAll values.dropLast).bind scope name v) hand :=
            .of_move ⟨rfl, rfl, rfl, rfl, rfl, rfl⟩ fun _ => .bind ready.writes fun μ mem =>
              .kept (given (Value.marks_subset among mem))
          exact .ok rfl ((pushed.trans bound).trans (.forget _ _))
  | construct typeName =>
      let fresh := m.numbered (m.common.serial + 1)
      have step : dispatch host (inside host levels) (.construct typeName) values scope m =
          (Run.ofExcept (m.session.registry.decode typeName values m.common.serial) >>= fun v => do
            set fresh
            Run.push v : Run σ Unit) m := rfl
      cases decoded : m.session.registry.decode typeName values m.common.serial with
      | error fault =>
          rw [decoded] at step
          exact .error step (.forget _ _)
      | ok v =>
          rw [decoded] at step
          have numbered : Reaches writable m hand [] fresh hand :=
            .of_move ⟨rfl, rfl, rfl, rfl, rfl, rfl⟩ fun _ => .number
          have pushed : Reaches writable fresh hand [] (fresh.push v) hand := by
            refine .push fun μ mem => ?_
            rcases List.mem_cons.mp (ready.registry _ _ _ _ decoded mem) with rfl | mem
            · exact .serial (Nat.lt_succ_self _)
            · exact .kept (given mem)
          exact .ok step ((numbered.trans pushed).trans (.forget _ _))

theorem follows_literal {v : Value} (ready : m.Ready writable scope)
    (accepts : m.Accepts (.literal v)) :
    Follows writable m [] (evalTree host (inside host levels) (.literal v) scope)
      (treeEvents host levels (watch host levels) (.literal v) scope m) fun _ => [] := by
  by_cases made : ∃ params body home, v = .closure params body home
  · obtain ⟨params, body, home, rfl⟩ := made
    rw [evalTree, treeEvents]
    have inner : ∀ μ ∈ body.marks.map Mark.within, ∃ n < m.common.serial, μ = Mark.serial n :=
      fun μ mem => accepts μ (List.mem_append_right _ mem)
    have learnt : Reaches writable m [] [] m (body.marks.map .within) := .learn fun μ mem => by
      obtain ⟨n, lt, rfl⟩ := inner μ mem
      exact .serial lt
    have captured : Reaches writable m (body.marks.map .within) [.made scope] (m.capture scope)
        (.home scope :: body.marks.map .within) := by
      refine ⟨?_, fun log => .single (.capture ready.lives fun g mem => ?_)⟩
      · rcases m.capture_cases scope with ⟨-, same⟩ | ⟨_, _, -, same⟩
        · rw [same]
          exact .refl m
        · rw [same]
          exact ⟨rfl, rfl, rfl, rfl, rfl, rfl⟩
      · obtain ⟨n, -, same⟩ := inner _ mem
        exact nomatch same
    have pushed : Reaches writable (m.capture scope) (.home scope :: body.marks.map .within) []
        ((m.capture scope).push (.closure params body (some scope)))
        (.home scope :: body.marks.map .within) := .push fun μ mem => .kept mem
    exact .ok rfl (((learnt.trans captured).trans pushed).trans (.forget _ _))
  · have plain : ∀ ps b f, v ≠ .closure ps b f := fun ps b f same => made ⟨ps, b, f, same⟩
    rw [evalTree_plain _ _ plain, treeEvents]
    · refine .push (fun μ mem => ?_) (List.nil_subset _)
      obtain ⟨n, lt, rfl⟩ := accepts μ mem
      exact .serial lt
    · exact plain

mutual

theorem follows_tree (tidy : host.IsTidy writable)
    (below : ∀ fewer, levels = fewer + 1 → Followed writable host fewer) :
    ∀ (t : Tree) {m : Machine σ}, m.Ready writable scope → m.Accepts t →
      Follows writable m [] (evalTree host (inside host levels) t scope)
        (treeEvents host levels (watch host levels) t scope m) fun _ => []
  | .literal v, m, ready, accepts => follows_literal ready accepts
  | .reference path, m, ready, accepts => by
      rw [evalTree, treeEvents]
      refine (follows_resolve tidy.member ready.lives.alive path).bind_quiet fun v m' _ _ => ?_
      exact .push (fun μ mem => .kept (List.mem_append_left _ mem)) (List.nil_subset _)
  | .call head args, m, ready, accepts => by
      have trees := follows_trees tidy below args ready accepts
      by_cases sequence : head = .sequence
      · subst sequence
        rw [evalTree, treeEvents]
        exact trees
      · rw [evalTree_applied host _ sequence, treeEvents]
        · rw [Follows, Run.bind_of_ok Run.height_eq]
          refine trees.bind fun _ m₁ _ reached => ?_
          have ready₁ := reached.ready ready nofun
          refine (follows_splitOff _).bind fun values m₂ _ split => ?_
          exact follows_dispatch tidy below (split.ready ready₁ nofun)
            (split.made ready₁.toFit nofun) (List.Subset.refl _)
        · exact sequence

theorem follows_trees (tidy : host.IsTidy writable)
    (below : ∀ fewer, levels = fewer + 1 → Followed writable host fewer) :
    ∀ (ts : List Tree) {m : Machine σ}, m.Ready writable scope →
      (∀ μ ∈ Tree.marksAll ts, ∃ n < m.common.serial, μ = .serial n) →
      Follows writable m [] (evalTrees host (inside host levels) ts scope)
        (treesEvents host levels (watch host levels) ts scope m) fun _ => []
  | [], m, ready, accepts => .pure nofun
  | t :: rest, m, ready, accepts => by
      rw [evalTrees, treesEvents]
      have first : m.Accepts t := fun μ mem => accepts μ (List.mem_append_left _ mem)
      refine (follows_tree tidy below t ready first).bind fun _ m' _ reached => ?_
      refine follows_trees tidy below rest (reached.ready ready nofun) fun μ mem => ?_
      obtain ⟨n, lt, same⟩ := accepts μ (List.mem_append_right _ mem)
      exact ⟨n, Nat.lt_of_lt_of_le lt (reached.moves []).serial_le, same⟩

end

/-! ## Methods -/

theorem Machine.lives_ambient (m : Machine σ) : m.Lives m.session.ambient :=
  Store.alive_iff.mpr ⟨m.session.ambient, List.mem_append_left _ List.mem_cons_self,
    Store.mem_chain_self _ _⟩

theorem Machine.Fit.ready_ambient (fit : m.Fit writable) (writes : writable m.session.ambient) :
    m.Ready writable m.session.ambient where
  toFit := fit
  lives := m.lives_ambient
  writes := writes

theorem Machine.Fit.ready_hold (fit : m.Fit writable) {scope : FrameId}
    (alive : m.alive scope = true) (writes : writable scope) :
    (m.hold scope).Ready writable scope where
  toFit := by
    have moved : Moves writable ⟨m, [], []⟩ ⟨m.hold scope, [], []⟩ := .single (.hold alive)
    exact moved.fit fit nofun
  lives := Store.alive_iff.mpr
    ⟨scope, by simp [Machine.roots, Machine.hold], Store.mem_chain_self _ _⟩
  writes := writes

theorem follows_method (tidy : host.IsTidy writable)
    (below : ∀ fewer, levels = fewer + 1 → Followed writable host fewer) (act : Method σ)
    {m : Machine σ} {hand : List Mark} (fit : m.Fit writable) (made : ∀ μ ∈ hand, m.Made μ)
    (neat : act.Tidy writable m hand) :
    Follows writable m hand (runMethod (level host levels) act)
      (methodEvents host levels (watch host levels) act m) fun v => Value.marksAll v.toList := by
  induction act generalizing m hand with
  | finish result =>
      rcases result with fault | _ | v
      · exact .fail fault
      · exact .pure nofun
      · refine .pure fun μ mem => ?_
        rw [Option.toList, Value.marksAll, Value.marksAll, List.append_nil] at mem
        exact neat μ mem
  | push v next ih =>
      have pushed : Reaches writable m hand [] (m.push v) hand := .push neat.1
      have fit' := (pushed.moves []).fit fit made
      exact .resume pushed (Run.bind_of_ok (Run.push_eq v))
        (ih fit' (pushed.made fit made) neat.2)
  | call callee name args next ih =>
      rw [runMethod, methodEvents]
      obtain ⟨given, later⟩ := neat
      have learnt : Reaches writable m hand [] m (callee.marks ++ Value.marksAll args) :=
        .learn given
      have made' := learnt.made fit made
      refine .learn given ?_
      have called : Follows writable m (callee.marks ++ Value.marksAll args)
          ((level host levels).call callee name args m.session.ambient) _ fun _ => [] :=
        follows_call below fit m.lives_ambient made' (List.subset_append_left _ _)
          (List.subset_append_right _ _)
      refine called.caught.bind fun result m' _ reached => ?_
      have fit' := (reached.moves []).fit fit made'
      exact ih result fit' nofun (later result m' reached.returns fit')
  | run t next ih =>
      rw [runMethod, methodEvents]
      obtain ⟨accepts, writes, later⟩ := neat
      refine .forget ?_
      have ran := follows_tree tidy below t (fit.ready_ambient writes) accepts
      refine ran.caught.bind fun result m' _ reached => ?_
      have fit' := (reached.moves []).fit fit nofun
      exact ih result fit' nofun (later result m' reached.returns fit')
  | runIn t scope next ih =>
      rw [runMethod, methodEvents]
      obtain ⟨accepts, ⟨alive, writes⟩, later⟩ := neat
      refine .forget ?_
      have ran := (follows_tree tidy below t (fit.ready_hold alive writes) accepts).holding alive
      refine ran.caught.bind fun result m' _ reached => ?_
      have fit' := (reached.moves []).fit fit nofun
      exact ih result fit' nofun (later result m' reached.returns fit')
  | look next ih => exact ih _ _ fit made neat
  | change act next ih =>
      have changed : Reaches writable m hand [] (m.changed (act m.whole)) hand :=
        .of_move ⟨rfl, rfl, rfl, rfl, rfl, rfl⟩ fun _ => .change neat.1.1 neat.1.2
      have fit' := (changed.moves []).fit fit made
      exact .resume changed rfl (ih fit' (changed.made fit made) neat.2)
  | stuck => exact .error rfl (.forget m hand)

end Levels

theorem followed (tidy : host.IsTidy writable) (levels : Nat) :
    Followed writable host levels := by
  induction levels with
  | zero =>
      have below : ∀ fewer, 0 = fewer + 1 → Followed writable host fewer :=
        fun _ same => nomatch same
      exact ⟨fun t _ _ ready accepts => follows_tree tidy below t ready accepts,
        fun act _ _ fit made neat => follows_method tidy below act fit made neat⟩
  | succ levels ih =>
      have below : ∀ fewer, levels + 1 = fewer + 1 → Followed writable host fewer := by
        rintro _ ⟨⟩
        exact ih
      exact ⟨fun t _ _ ready accepts => follows_tree tidy below t ready accepts,
        fun act _ _ fit made neat => follows_method tidy below act fit made neat⟩

end PeerScript
