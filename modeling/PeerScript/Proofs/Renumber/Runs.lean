import PeerScript.Proofs.Moves.Tasks
import PeerScript.Proofs.Renumber

/-!
# Runs with other numbers

A run that invokes no method of an object does the same on a machine with other numbers, and gives
new instances the numbers that come next there.  Whether a method is invoked is found out by running
with objects whose methods wait forever: such a run ends unfinished exactly when it gets to one.
With the numbers left as they are, this says that the methods of objects are of no concern to a run
that invokes none.
-/

set_option autoImplicit false

namespace PeerScript

variable {σ α β : Type} {ρ : Nat → Nat}

/-- The same objects, with methods that wait forever. -/
def Host.mute (host : Host σ) : Host σ := { host with method := fun _ _ _ => .stuck }

/-- Members have no numbers in them. -/
def Host.HasPlainMembers (host : Host σ) : Prop :=
  ∀ world o name v, host.member world o name = some v → v.marks = []

/-- The numbers that are still to be given are counted up on both sides, and no type tells them
apart. -/
def Machine.Steady (ρ : Nat → Nat) (m : Machine σ) : Prop :=
  (∀ n, m.common.serial ≤ n → ρ (n + 1) = ρ n + 1) ∧ m.session.registry.IsUniform

/-- What `r` does on a machine, `r'` does on the machine with other numbers, unless `r` waits for
something that cannot happen. -/
structure Mirrored (ρ : Nat → Nat) (g : α → α) (m : Machine σ) (r r' : Run σ α) : Prop where
  ok : ∀ a m', r m = .ok a m' →
    r' (m.renumber ρ) = .ok (g a) (m'.renumber ρ) ∧ m'.Steady ρ
  error : ∀ stop m', r m = .error stop m' → stop ≠ .unfinished →
    r' (m.renumber ρ) = .error stop (m'.renumber ρ) ∧ m'.Steady ρ

variable {m m' : Machine σ} {g : α → α} {h : β → β}

namespace Mirrored

theorem of_ok {r r' : Run σ α} {a : α} (steady : m'.Steady ρ) (ran : r m = .ok a m')
    (ran' : r' (m.renumber ρ) = .ok (g a) (m'.renumber ρ)) : Mirrored ρ g m r r' where
  ok b n same := by
    cases ran.symm.trans same
    exact ⟨ran', steady⟩
  error stop n same := nomatch ran.symm.trans same

theorem of_error {r r' : Run σ α} {stop : Stop} (steady : m'.Steady ρ) (ran : r m = .error stop m')
    (ran' : r' (m.renumber ρ) = .error stop (m'.renumber ρ)) : Mirrored ρ g m r r' where
  ok b n same := nomatch ran.symm.trans same
  error stop n same _ := by
    cases ran.symm.trans same
    exact ⟨ran', steady⟩

theorem unfinished {r r' : Run σ α} (ran : r m = .error .unfinished m') : Mirrored ρ g m r r' where
  ok b n same := nomatch ran.symm.trans same
  error stop n same ne := by
    cases ran.symm.trans same
    exact absurd rfl ne

/-- Two runs go on as two others do from another machine. -/
theorem resume {r r' s s' : Run σ α} (same : r m = s m')
    (same' : r' (m.renumber ρ) = s' (m'.renumber ρ)) (rest : Mirrored ρ g m' s s') :
    Mirrored ρ g m r r' where
  ok a n ran := same' ▸ rest.ok a n (same ▸ ran)
  error stop n ran ne := same' ▸ rest.error stop n (same ▸ ran) ne

theorem pure (steady : m.Steady ρ) (a : α) : Mirrored ρ g m (Pure.pure a) (Pure.pure (g a)) :=
  of_ok steady rfl rfl

theorem throw (steady : m.Steady ρ) (stop : Stop) :
    Mirrored ρ g m (throw stop : Run σ α) (throw stop) := of_error steady rfl rfl

theorem fail (steady : m.Steady ρ) (fault : Fault) :
    Mirrored ρ g m (Run.fail fault : Run σ α) (Run.fail fault) := throw steady _

theorem bind {r r' : Run σ α} {f f' : α → Run σ β} (first : Mirrored ρ g m r r')
    (next : ∀ a m', r m = .ok a m' → m'.Steady ρ → Mirrored ρ h m' (f a) (f' (g a))) :
    Mirrored ρ h m (r >>= f) (r' >>= f') := by
  cases ran : r m with
  | ok a m' =>
      obtain ⟨ran', steady⟩ := first.ok a m' ran
      exact resume (Run.bind_of_ok ran) (Run.bind_of_ok ran') (next a m' ran steady)
  | error stop m' =>
      by_cases stuck : stop = .unfinished
      · subst stuck
        exact unfinished (Run.bind_of_error ran)
      · obtain ⟨ran', steady⟩ := first.error stop m' ran stuck
        exact of_error steady (Run.bind_of_error ran) (Run.bind_of_error ran')

theorem get {f f' : Machine σ → Run σ α} (h : Mirrored ρ g m (f m) (f' (m.renumber ρ))) :
    Mirrored ρ g m (MonadState.get >>= f) (MonadState.get >>= f') := ⟨h.ok, h.error⟩

theorem modify {change change' : Machine σ → Machine σ} (steady : (change m).Steady ρ)
    (same : change' (m.renumber ρ) = (change m).renumber ρ) :
    Mirrored ρ id m (modify change) (modify change') :=
  of_ok steady rfl (congrArg (EStateM.Result.ok ()) same)

theorem push (steady : m.Steady ρ) (v : Value) :
    Mirrored ρ id m (Run.push v) (Run.push (v.renumber ρ)) := modify steady rfl

theorem pushAll (steady : m.Steady ρ) (vs : List Value) :
    Mirrored ρ id m (MonadState.modifyGet fun m : Machine σ => ((), m.pushAll vs))
      (MonadState.modifyGet fun m : Machine σ => ((), m.pushAll (vs.map (Value.renumber ρ)))) :=
  modify steady (m.renumber_pushAll vs).symm

theorem pop (steady : m.Steady ρ) :
    Mirrored ρ (Value.renumber ρ) m (Run.pop : Run σ Value) Run.pop := by
  refine get ?_
  have stack : (m.renumber ρ).session.stack = m.session.stack.map (Value.renumber ρ) := rfl
  rw [stack]
  cases m.session.stack with
  | nil => exact fail steady _
  | cons v rest =>
      have taken : (m.withStack rest).Steady ρ := steady
      exact of_ok taken rfl (congrArg (EStateM.Result.ok _) (m.renumber_withStack rest).symm)

theorem height (steady : m.Steady ρ) : Mirrored ρ id m (Run.height : Run σ Nat) Run.height :=
  of_ok steady rfl (congrArg (EStateM.Result.ok · _) (List.length_map _))

theorem ofExcept (steady : m.Steady ρ) (x : Except Fault α) :
    Mirrored ρ g m (Run.ofExcept x) (Run.ofExcept (x.map g)) := by
  cases x with
  | error fault => exact fail steady fault
  | ok a => exact pure steady a

theorem splitOff (steady : m.Steady ρ) (base : Nat) :
    Mirrored ρ (List.map (Value.renumber ρ)) m (Run.splitOff base : Run σ (List Value))
      (Run.splitOff base) := by
  have stack : (m.renumber ρ).session.stack = m.session.stack.map (Value.renumber ρ) := rfl
  by_cases low : m.session.stack.length < base
  · have low' : (m.renumber ρ).session.stack.length < base := by rwa [stack, List.length_map]
    exact of_error steady (Run.splitOff_of_lt low) (Run.splitOff_of_lt low')
  · have high := Nat.le_of_not_lt low
    have high' : base ≤ (m.renumber ρ).session.stack.length := by rwa [stack, List.length_map]
    have steady' : (m.withStack (m.session.stack.drop (m.session.stack.length - base))).Steady ρ :=
      steady
    refine of_ok steady' (Run.splitOff_of_le high) ?_
    rw [Run.splitOff_of_le high', stack, List.length_map, List.map_reverse, List.map_take,
      Machine.renumber_withStack, List.map_drop]

end Mirrored

/-! ## Builtins -/

namespace Builtin

variable {args : List Value} {host : Host σ}

theorem plainText_renumber (e : Encoder) (v : Value) :
    plainText e (v.renumber ρ) = plainText e v := by
  cases v with
  | list | closure | handle => exact congrArg String.ofList (e.value_renumber _)
  | _ => rfl

theorem mirrored_single (steady : m.Steady ρ) (b : Builtin) :
    Mirrored ρ (Value.renumber ρ) m (b.single args) (b.single (args.map (Value.renumber ρ))) := by
  rcases args with _ | ⟨v, _ | ⟨w, rest⟩⟩
  · exact .fail steady _
  · exact .pure steady v
  · have count : b.wrongCount 1 ((v :: w :: rest).map (Value.renumber ρ)) =
        b.wrongCount 1 (v :: w :: rest) := congrArg (Fault.arity b.name 1) (List.length_map _)
    refine .of_error steady rfl ?_
    exact congrArg (fun fault => EStateM.Result.error (Stop.failed fault) (m.renumber ρ)) count

theorem mirrored_noArgs (steady : m.Steady ρ) (b : Builtin) :
    Mirrored ρ id m (b.noArgs args) (b.noArgs (args.map (Value.renumber ρ))) := by
  have count : b.wrongCount 0 (args.map (Value.renumber ρ)) = b.wrongCount 0 args :=
    congrArg (Fault.arity b.name 0) (List.length_map _)
  unfold noArgs
  rw [List.isEmpty_map, count]
  split
  · exact .pure steady ()
  · exact .fail steady _

/-- Builtins do the same with other numbers. -/
theorem mirrored_run (steady : m.Steady ρ) (b : Builtin) :
    Mirrored ρ (Option.map (Value.renumber ρ)) m (b.run host.mute args)
      (b.run host (args.map (Value.renumber ρ))) := by
  have count : ∀ (b : Builtin) n, Fault.arity b.name n (args.map (Value.renumber ρ)).length =
      Fault.arity b.name n args.length := fun b n => by rw [List.length_map]
  cases b with
  | assert =>
      have truthy : (args.map (Value.renumber ρ)).all Value.truthy = args.all Value.truthy := by
        rw [List.all_map]
        exact List.all_congr rfl fun v => Value.truthy_renumber v
      unfold run
      dsimp only
      rw [List.isEmpty_map, truthy, wrongCount, wrongCount, count]
      split
      · exact .fail steady _
      · split
        · exact .pure steady none
        · exact .fail steady _
  | print =>
      have texts : (args.map (Value.renumber ρ)).map (plainText (host.encoder m)) =
          args.map (plainText (host.encoder m)) := by
        rw [List.map_map]
        exact List.map_congr_left fun v _ => plainText_renumber _ v
      refine .get ((Mirrored.modify steady ?_).bind fun _ _ _ steady => .pure steady none)
      change Machine.mk (m.session.renumber ρ)
        { m.common.renumber ρ with printed := (" ".intercalate
        ((args.map (Value.renumber ρ)).map (plainText (host.encoder m)))) :: m.common.printed } = _
      rw [texts]
      rfl
  | depth =>
      refine (mirrored_noArgs steady _).bind fun _ _ _ steady => ?_
      exact (Mirrored.height steady).bind fun n _ _ steady =>
        .pure steady (some (Builtin.count n))
  | drop =>
      refine (mirrored_noArgs steady _).bind fun _ _ _ steady => ?_
      exact (Mirrored.pop steady).bind fun _ _ _ steady => .pure steady none
  | dup =>
      refine (mirrored_noArgs steady _).bind fun _ m _ steady => .get ?_
      have stack : (m.renumber ρ).session.stack = m.session.stack.map (Value.renumber ρ) := rfl
      rw [stack]
      cases m.session.stack with
      | nil => exact .fail steady _
      | cons v rest => exact .pure steady (some v)
  | swap =>
      refine (mirrored_noArgs steady _).bind fun _ m _ steady => .get ?_
      have stack : (m.renumber ρ).session.stack = m.session.stack.map (Value.renumber ρ) := rfl
      rw [stack]
      rcases m.session.stack with _ | ⟨top, _ | ⟨below, rest⟩⟩
      · exact .fail steady _
      · exact .fail steady _
      · refine (Mirrored.modify steady ?_).bind fun _ _ _ steady => .pure steady (some below)
        exact (m.renumber_withStack (top :: rest)).symm
  | clear =>
      refine (mirrored_noArgs steady _).bind fun _ m _ steady => ?_
      refine (Mirrored.modify steady ?_).bind fun _ _ _ steady => .pure steady none
      exact (m.renumber_withStack []).symm
  | len =>
      refine (mirrored_single steady _).bind fun v _ _ steady => ?_
      cases v with
      | str s => exact .pure steady (some (Builtin.count s.length))
      | list items =>
          have length : (Value.renumberAll ρ items).length = items.length := by simp
          change Mirrored ρ _ _ _ (pure (some (Builtin.count (Value.renumberAll ρ items).length)))
          rw [length]
          exact .pure steady (some (Builtin.count items.length))
      | _ => exact .fail steady _
  | str =>
      refine (mirrored_single steady _).bind fun v m _ steady => .get ?_
      have text := plainText_renumber (ρ := ρ) (host.encoder m) v
      change Mirrored ρ _ m (pure (some (Value.str (plainText (host.encoder m) v))))
        (pure (some (Value.str (plainText (host.encoder m) (v.renumber ρ)))))
      rw [text]
      exact .pure steady (some (Value.str _))
  | type =>
      refine (mirrored_single steady _).bind fun v _ _ steady => ?_
      rw [Value.typeName_renumber]
      exact .pure steady (some (Value.str _))

end Builtin

/-! ## Names -/

section Names

variable {host : Host σ} {scope : FrameId}

theorem mirrored_lookup (steady : m.Steady ρ) (name : String) :
    Mirrored ρ (Value.renumber ρ) m (lookup name scope) (lookup name scope) := by
  refine .get ?_
  have found : ∀ f, (m.renumber ρ).common.store.get? f name = (m.common.store.get? f name).map
      (Value.renumber ρ) :=
    fun f => Store.get?_renumber ..
  have ambient : (m.renumber ρ).session.ambient = m.session.ambient := rfl
  rw [found, ambient, found]
  cases m.common.store.get? scope name with
  | some v => exact .pure steady v
  | none =>
      cases m.common.store.get? m.session.ambient name with
      | some v => exact .pure steady v
      | none => exact .fail steady _

variable (plain : host.HasPlainMembers)

include plain

theorem mirrored_member (steady : m.Steady ρ) (v : Value) (name : String) :
    Mirrored ρ (Value.renumber ρ) m (member host.mute v name)
      (member host (v.renumber ρ) name) := by
  refine .get ?_
  cases v with
  | object o =>
      have world : (m.renumber ρ).common.world = m.common.world := rfl
      have object : (Value.object o).renumber ρ = .object o := rfl
      rw [object, world]
      dsimp only [Host.mute]
      cases found : host.member m.common.world o name with
      | none => exact .fail steady _
      | some w =>
          have same : w.renumber ρ = w := Value.renumber_of_marks (plain _ _ _ _ found)
          exact .of_ok steady rfl (congrArg (EStateM.Result.ok · _) same.symm)
  | _ => exact .fail steady _

theorem mirrored_membersOf (steady : m.Steady ρ) (v : Value) (names : List String) :
    Mirrored ρ (Value.renumber ρ) m (membersOf host.mute v names)
      (membersOf host (v.renumber ρ) names) := by
  induction names generalizing m v with
  | nil => exact .pure steady v
  | cons name names ih =>
      exact (mirrored_member plain steady v name).bind fun w _ _ steady => ih steady w

theorem mirrored_resolve (steady : m.Steady ρ) (path : Path) :
    Mirrored ρ (Value.renumber ρ) m (resolve host.mute path scope) (resolve host path scope) := by
  refine (mirrored_lookup steady path.root).bind fun v _ _ steady => ?_
  split
  · exact .throw steady _
  · exact mirrored_membersOf plain steady v _

end Names

/-! ## Invocations -/

theorem Mirrored.counted {r r' : Run σ α} (h : Mirrored ρ g m.enter r r') :
    Mirrored ρ g m (PeerScript.counted r) (PeerScript.counted r') := by
  have step := counted_eq r m
  have step' := counted_eq r' (m.renumber ρ)
  have entered : (m.renumber ρ).enter = m.enter.renumber ρ := rfl
  rw [entered] at step'
  cases ran : r m.enter with
  | ok a m' =>
      obtain ⟨ran', steady⟩ := h.ok a m' ran
      rw [ran] at step
      rw [ran'] at step'
      have ended : m'.leave.Steady ρ := steady
      exact .of_ok ended step step'
  | error stop m' =>
      rw [ran] at step
      by_cases stuck : stop = .unfinished
      · exact .unfinished (stuck ▸ step)
      · obtain ⟨ran', steady⟩ := h.error stop m' ran stuck
        rw [ran'] at step'
        have ended : m'.leave.Steady ρ := steady
        exact .of_error ended step step'

theorem Mirrored.holding {r r' : Run σ α} {frame : FrameId} (h : Mirrored ρ g (m.hold frame) r r') :
    Mirrored ρ g m (PeerScript.holding frame r) (PeerScript.holding frame r') := by
  have step := holding_eq frame r m
  have step' := holding_eq frame r' (m.renumber ρ)
  have held : (m.renumber ρ).hold frame = (m.hold frame).renumber ρ := rfl
  rw [held] at step'
  cases ran : r (m.hold frame) with
  | ok a m' =>
      obtain ⟨ran', steady⟩ := h.ok a m' ran
      rw [ran] at step
      rw [ran'] at step'
      have ended : m'.letGo.Steady ρ := steady
      exact .of_ok ended step step'
  | error stop m' =>
      rw [ran] at step
      by_cases stuck : stop = .unfinished
      · exact .unfinished (stuck ▸ step)
      · obtain ⟨ran', steady⟩ := h.error stop m' ran stuck
        rw [ran'] at step'
        have ended : m'.letGo.Steady ρ := steady
        exact .of_error ended step step'

/-- What an invocation runs does the same on both sides, if there is a level for it. -/
theorem Mirrored.invocation {host : Host σ} {levels : Nat} {act act' : Inside σ → Run σ α}
    (steady : m.Steady ρ)
    (h : ∀ fewer, levels = fewer + 1 →
      Mirrored ρ g m.enter (act (level host.mute fewer)) (act' (level host fewer))) :
    Mirrored ρ g m (PeerScript.invocation (inside host.mute levels) act)
      (PeerScript.invocation (inside host levels) act') := by
  refine .get ?_
  change Mirrored ρ g m _ (if invocationLimit ≤ m.session.depth then _ else _)
  split
  · exact .fail steady _
  · cases levels with
    | zero => exact .unfinished rfl
    | succ fewer => exact (h fewer rfl).counted

theorem around_renumber (m : Machine σ) (home : Option FrameId) (scope : FrameId) :
    (m.renumber ρ).around home scope = m.around home scope := by
  cases home with
  | none => rfl
  | some f => rw [Machine.around, Machine.around, m.alive_renumber]

theorem renumber_framed (m : Machine σ) (parent : FrameId) (bindings : List (String × Value)) :
    (m.framed parent bindings).renumber ρ =
      (m.renumber ρ).framed parent (Store.renumberBindings ρ bindings) := by
  simp only [Machine.framed, Machine.renumber, Common.renumber, Store.renumber_setAll,
    Store.renumber_alloc, Store.size_renumber]

theorem mirrored_newFrame (steady : m.Steady ρ) (parent : FrameId)
    (bindings : List (String × Value)) :
    Mirrored ρ id m (newFrame parent bindings : Run σ FrameId)
      (newFrame parent (Store.renumberBindings ρ bindings)) := by
  have made : ∀ (m : Machine σ) bindings, (newFrame parent bindings : Run σ FrameId) m =
      .ok m.common.store.frames.size (m.framed parent bindings) := fun _ _ => rfl
  have framed : (m.framed parent bindings).Steady ρ := steady
  refine .of_ok framed (made m bindings) ?_
  rw [made, renumber_framed]
  exact congrArg (EStateM.Result.ok · _) m.common.store.size_renumber

theorem renumberBindings_zip (params : List String) (args : List Value) :
    Store.renumberBindings ρ (params.zip args) = params.zip (args.map (Value.renumber ρ)) := by
  rw [Store.renumberBindings, List.zip_map_right]
  rfl

/-! ## Calls and trees -/

/-- What is run inside of an invocation does the same on both sides, with at most as many levels. -/
def Echoes (ρ : Nat → Nat) (host : Host σ) (levels : Nat) : Prop :=
  ∀ (t : Tree) (scope : FrameId) (m : Machine σ), m.Steady ρ →
    Mirrored ρ id m (evalTree host.mute (inside host.mute levels) t scope)
      (evalTree host (inside host levels) (t.renumber ρ) scope)

section Trees

variable {host : Host σ} {levels : Nat} {scope : FrameId}

theorem mirrored_call (below : ∀ fewer, levels = fewer + 1 → Echoes ρ host fewer)
    (steady : m.Steady ρ) (callee : Value) (name : String) (args : List Value) :
    Mirrored ρ id m (callValue host.mute (inside host.mute levels) callee name args scope)
      (callValue host (inside host levels) (callee.renumber ρ) name (args.map (Value.renumber ρ))
        scope) := by
  cases callee with
  | native b =>
      refine (Builtin.mirrored_run steady b).bind fun v _ _ steady => ?_
      cases v with
      | none => exact .pure steady ()
      | some v => exact .push steady v
  | closure params body home =>
      have step := callValue_closure (m := m) host.mute (inside host.mute levels) params body home
        name args scope
      have step' := callValue_closure (m := m.renumber ρ) host (inside host levels) params
        (body.renumber ρ) home name (args.map (Value.renumber ρ)) scope
      rw [List.length_map, around_renumber, ← renumberBindings_zip] at step'
      by_cases enough : params.isEmpty ∨ params.length = args.length
      · rw [if_pos enough] at step step'
        have pushed : (if params.isEmpty then (m.renumber ρ).pushAll (args.map (Value.renumber ρ))
            else m.renumber ρ) = (if params.isEmpty then m.pushAll args else m).renumber ρ := by
          rw [← m.renumber_pushAll]
          split <;> rfl
        rw [pushed] at step'
        refine .resume step step' ?_
        have steady' : (if params.isEmpty then m.pushAll args else m).Steady ρ := by
          split <;> exact steady
        refine (mirrored_newFrame steady' _ _).bind fun frame _ _ steady => ?_
        exact .invocation steady fun fewer same => .holding (below fewer same body _ _ steady)
      · rw [if_neg enough] at step step'
        exact .of_error steady step step'
  | _ => exact .fail steady _

/-- A path leads to the same value on both sides, or to a method that waits. -/
theorem mirrored_path (plain : host.HasPlainMembers)
    (below : ∀ fewer, levels = fewer + 1 → Echoes ρ host fewer) (steady : m.Steady ρ) (path : Path)
    (args : List Value) :
    Mirrored ρ id m (callPath host.mute (inside host.mute levels) path args scope)
      (callPath host (inside host levels) path (args.map (Value.renumber ρ)) scope) := by
  unfold callPath
  split
  · exact .fail steady _
  · refine (mirrored_lookup steady _).bind fun callee _ _ steady => ?_
    exact mirrored_call below steady callee _ args
  · refine (mirrored_resolve plain steady _).bind fun v m₁ _ steady => ?_
    cases v with
    | object o =>
        refine Mirrored.bind (g := Option.map (Value.renumber ρ)) ?_ fun v _ _ steady => ?_
        · exact .invocation steady fun _ _ => .unfinished rfl
        cases v with
        | none => exact .pure steady ()
        | some v => exact .push steady v
    | _ => exact .fail steady _

theorem mirrored_dispatch (inj : ρ.Injective) (plain : host.HasPlainMembers)
    (below : ∀ fewer, levels = fewer + 1 → Echoes ρ host fewer)
    (steady : m.Steady ρ) (head : Head) (values : List Value) :
    Mirrored ρ id m (dispatch host.mute (inside host.mute levels) head values scope)
      (dispatch host (inside host levels) head (values.map (Value.renumber ρ)) scope) := by
  cases head with
  | sequence => exact .pushAll steady values
  | bind name =>
      unfold dispatch
      dsimp only
      rw [List.getLast?_map]
      cases values.getLast? with
      | none => exact .fail steady _
      | some v =>
          have dropped := Mirrored.pushAll steady values.dropLast
          rw [List.map_dropLast] at dropped
          refine dropped.bind fun _ m₁ _ steady => ?_
          have bound : (m₁.bind scope name v).Steady ρ := steady
          exact .of_ok bound rfl
            (congrArg (EStateM.Result.ok ()) (m₁.renumber_bind scope name v).symm)
  | op operator =>
      have computed := Mirrored.ofExcept (g := Value.renumber ρ) steady (operator.apply values)
      rw [← operator.apply_renumber inj] at computed
      exact computed.bind fun v _ _ steady => .push steady v
  | list =>
      have whole := Mirrored.push steady (.list values)
      rwa [Value.renumber, Value.renumberAll_eq] at whole
  | construct typeName =>
      refine .get ?_
      have made := Mirrored.ofExcept (g := Value.renumber ρ) steady
        (m.session.registry.decode typeName values m.common.serial)
      rw [← steady.2.decode inj] at made
      refine made.bind fun v m₁ ran steady₁ => ?_
      have next : (m.numbered (m.common.serial + 1)).Steady ρ :=
        ⟨fun n le => steady.1 n (Nat.le_of_succ_le le), steady.2⟩
      have numbered : Mirrored ρ id m₁ (set (m.numbered (m.common.serial + 1)))
          (set ((m.renumber ρ).numbered (ρ m.common.serial + 1))) := by
        refine .of_ok next rfl (congrArg (EStateM.Result.ok _) ?_)
        rw [← steady.1 _ (Nat.le_refl _)]
        rfl
      exact numbered.bind fun _ _ _ steady => .push steady v
  | invoke path => exact mirrored_path plain below steady path values

mutual

theorem mirrored_tree (inj : ρ.Injective) (plain : host.HasPlainMembers)
    (below : ∀ fewer, levels = fewer + 1 → Echoes ρ host fewer) :
    ∀ (t : Tree) {m : Machine σ}, m.Steady ρ →
      Mirrored ρ id m (evalTree host.mute (inside host.mute levels) t scope)
        (evalTree host (inside host levels) (t.renumber ρ) scope)
  | .literal v, m, steady => by
      by_cases made : ∃ params body home, v = .closure params body home
      · obtain ⟨params, body, home, rfl⟩ := made
        rw [Tree.renumber, Value.renumber, evalTree, evalTree]
        have same := m.renumber_capture (ρ := ρ) scope
        have steady' : (m.capture scope).Steady ρ := by
          rcases m.capture_cases scope with ⟨-, same⟩ | ⟨_, _, -, same⟩ <;>
              rw [same] <;> exact steady
        have captured : Mirrored ρ id m (modify (·.capture scope)) (modify (·.capture scope)) :=
          .modify steady' same.symm
        exact captured.bind fun _ _ _ steady => .push steady (.closure params body (some scope))
      · have plain : ∀ ps b f, v ≠ .closure ps b f := fun ps b f same => made ⟨ps, b, f, same⟩
        have plain' : ∀ ps b f, v.renumber ρ ≠ .closure ps b f := fun ps b f same => by
          cases v <;> cases same
          exact plain _ _ _ rfl
        rw [Tree.renumber, evalTree_plain _ _ plain, evalTree_plain _ _ plain']
        exact .push steady v
  | .reference path, m, steady => by
      rw [Tree.renumber, evalTree, evalTree]
      exact (mirrored_resolve plain steady path).bind fun v _ _ steady => .push steady v
  | .call head args, m, steady => by
      rw [Tree.renumber]
      by_cases sequence : head = .sequence
      · subst sequence
        rw [evalTree, evalTree]
        exact mirrored_trees inj plain below args steady
      · rw [evalTree_applied _ _ sequence, evalTree_applied _ _ sequence]
        refine (Mirrored.height steady).bind fun base _ _ steady => ?_
        refine (mirrored_trees inj plain below args steady).bind fun _ _ _ steady => ?_
        refine (Mirrored.splitOff steady base).bind fun values _ _ steady => ?_
        exact mirrored_dispatch inj plain below steady head values

theorem mirrored_trees (inj : ρ.Injective) (plain : host.HasPlainMembers)
    (below : ∀ fewer, levels = fewer + 1 → Echoes ρ host fewer) :
    ∀ (ts : List Tree) {m : Machine σ}, m.Steady ρ →
      Mirrored ρ id m (evalTrees host.mute (inside host.mute levels) ts scope)
        (evalTrees host (inside host levels) (Tree.renumberAll ρ ts) scope)
  | [], m, steady => .pure steady ()
  | t :: rest, m, steady => by
      rw [Tree.renumberAll, evalTrees, evalTrees]
      refine (mirrored_tree inj plain below t steady).bind fun _ _ _ steady => ?_
      exact mirrored_trees inj plain below rest steady

end

theorem echoes (inj : ρ.Injective) (plain : host.HasPlainMembers) (levels : Nat) :
    Echoes ρ host levels := by
  induction levels with
  | zero =>
      have below : ∀ fewer, 0 = fewer + 1 → Echoes ρ host fewer := fun _ same => nomatch same
      exact fun t _ _ steady => mirrored_tree inj plain below t steady
  | succ levels ih =>
      refine fun t _ _ steady => mirrored_tree inj plain ?_ t steady
      rintro _ ⟨⟩
      exact ih

/-- A script that invokes no method does the same with other numbers. -/
theorem mirrored_script (inj : ρ.Injective) (plain : host.HasPlainMembers)
    (steady : m.Steady ρ) (t : Tree) :
    Mirrored ρ id m (runScript host.mute t) (runScript host (t.renumber ρ)) := by
  have ran : Mirrored ρ id m (evalIn host.mute t m.session.ambient)
      (evalIn host (t.renumber ρ) m.session.ambient) := by
    have run := echoes inj plain m.levels t m.session.ambient m steady
    exact ⟨run.ok, run.error⟩
  have step := runScript_eq host.mute t m
  have step' := runScript_eq host (t.renumber ρ) (m.renumber ρ)
  have ambient : (m.renumber ρ).session.ambient = m.session.ambient := rfl
  rw [ambient] at step'
  cases result : evalIn host.mute t m.session.ambient m with
  | ok a m' =>
      obtain ⟨ran', steady⟩ := ran.ok a m' result
      rw [result] at step
      rw [ran'] at step'
      exact .of_ok steady step step'
  | error stop m' =>
      rw [result] at step
      cases stop with
      | failed fault =>
          obtain ⟨ran', steady⟩ := ran.error _ m' result (by rintro ⟨⟩)
          rw [ran'] at step'
          have ended : ({ m' with session := { m'.session with depth := 0 } }.push
              (marker fault)).Steady ρ := steady
          exact .of_error ended step step'
      | broken =>
          obtain ⟨ran', steady⟩ := ran.error _ m' result (by rintro ⟨⟩)
          rw [ran'] at step'
          exact .of_error steady step step'
      | unfinished => exact .unfinished step

end Trees

end PeerScript
