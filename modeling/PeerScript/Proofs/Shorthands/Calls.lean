import PeerScript.Proofs.Unbound

/-!
# Calls of shorthands

A shorthand is a function without parameters and without a home: its body runs in a frame of its own
below the caller's, and finds there what the caller finds.  What a method does counts as one more
invocation.  Behind both the session is as it was, but for what has been pushed.
-/

set_option autoImplicit false

namespace PeerScript

/-! ## Frames -/

namespace Store

variable {s t : Store} {f : FrameId} {name : String} {v : Value}

/-- A name has a value only in a frame that there is. -/
theorem lt_of_get? (found : s.get? f name = some v) : f < s.frames.size :=
  lt_of_contains (contains_eq.trans (by rw [found]; rfl))

/-- Where nothing is written, every name keeps its value. -/
theorem Spares.get?_eq (h : s.Spares (fun _ => False) t) (found : s.get? f name = some v) :
    t.get? f name = some v := by
  have lt := lt_of_get? found
  rw [← found, get?_of_chain (h.chain_eq lt), get?]
  have same : ∀ g ∈ s.chain f, t.local? g name = s.local? g name := fun g above =>
    h.local?_eq (Nat.lt_of_le_of_lt (chain_subset above).1 lt) id name
  generalize s.chain f = chain at same
  induction chain with
  | nil => rfl
  | cons g gs ih =>
      rw [List.findSome?_cons, List.findSome?_cons, same g List.mem_cons_self,
        ih fun g mem => same g (List.mem_cons_of_mem _ mem)]

/-- In a new frame below another one names mean what they mean there. -/
theorem get?_alloc (found : s.get? f name = some v) :
    (s.alloc (some f)).1.get? s.frames.size name = some v := by
  have lt := lt_of_get? found
  rw [get?_of_chain (chain_of_some (parent?_alloc (some f)) lt), List.findSome?_cons, local?,
    bindings_alloc, List.lookup_nil]
  exact (s.spares_alloc (fun _ => False) (some f)).get?_eq found

end Store

/-! ## Calls -/

variable {σ : Type} {host : Host σ} {m m' m'' : Machine σ} {scope : FrameId} {levels : Nat}
  {name : String}

namespace Machine

/-- The machine inside of a call of a function without parameters. -/
def calling (m : Machine σ) (scope : FrameId) : Machine σ :=
  ((m.framed scope []).enter).hold m.common.store.frames.size

/-- Some values have been pushed; otherwise the session is as it was, and what was bound is
bound. -/
structure Pushed (vs : List Value) (m m' : Machine σ) : Prop where
  session : m'.session = (m.pushAll vs).session
  frames : m.common.store.Spares (fun _ => False) m'.common.store

namespace Pushed

variable {vs ws : List Value}

theorem refl (m : Machine σ) : Pushed [] m m := ⟨rfl, .refl _ _⟩

theorem trans (h : Pushed vs m m') (k : Pushed ws m' m'') : Pushed (vs ++ ws) m m'' where
  session := by
    rw [k.session]
    change { m'.session with stack := ws.reverse ++ m'.session.stack } = _
    rw [h.session]
    simp [pushAll]
  frames := h.frames.trans k.frames fun _ _ => id

/-- The values are those on top. -/
theorem split (h : Pushed vs m m') : m' = (m'.withStack m.session.stack).pushAll vs := by
  have stack : m'.session.stack = vs.reverse ++ m.session.stack := by rw [h.session]; rfl
  change m' = { m' with session := { m'.session with stack := vs.reverse ++ m.session.stack } }
  rw [← stack]

/-- The values are taken off again. -/
theorem lowered (h : Pushed vs m m') : Pushed [] m (m'.withStack m.session.stack) where
  session := by
    change { m'.session with stack := m.session.stack } = _
    rw [h.session]
    rfl
  frames := h.frames

/-- One more value is pushed. -/
theorem push (h : Pushed vs m m') (v : Value) : Pushed (vs ++ [v]) m (m'.push v) :=
  h.trans ⟨rfl, .refl _ _⟩

/-- Behind a call. -/
theorem called (h : Pushed vs (m.calling scope) m') : Pushed vs m m'.letGo.leave where
  session := by
    change { m'.session with running := m'.session.running.tail, depth := m'.session.depth - 1 } = _
    rw [h.session]
    rfl
  frames := by
    have framed : m.common.store.Spares (fun _ => False) (m.calling scope).common.store :=
      m.common.store.spares_alloc _ (some scope)
    exact framed.trans h.frames fun _ _ => id

end Pushed

end Machine

theorem get?_calling {v : Value} (found : m.common.store.get? scope name = some v) :
    (m.calling scope).common.store.get? m.common.store.frames.size name = some v :=
  Store.get?_alloc found

theorem lookup_of_get? {v : Value} (found : m.common.store.get? scope name = some v) :
    lookup name scope m = .ok v m := by
  unfold lookup
  rw [Run.bind_of_ok Run.get_eq]
  simp only [found]
  rfl

/-- A statement by itself. -/
theorem evalTree_single (inside : Option (Inside σ)) (t : Tree) :
    evalTree host inside (.sequence [t]) scope m = evalTree host inside t scope m := by
  rw [Tree.sequence, evalTree, evalTrees]
  cases ran : evalTree host inside t scope m with
  | ok _ m' =>
      rw [Run.bind_of_ok ran]
      rfl
  | error stop m' => exact Run.bind_of_error ran

/-- A head gets the values that have been pushed. -/
theorem evalTree_pushed {inside : Option (Inside σ)} {head : Head} (single : head ≠ .sequence)
    {args : List Tree} {vs : List Value} (ran : evalTrees host inside args scope m = .ok () m')
    (pushed : m.Pushed vs m') :
    evalTree host inside (.call head args) scope m =
      dispatch host inside head vs scope (m'.withStack m.session.stack) :=
  evalTree_call host inside single (ran.trans (congrArg (EStateM.Result.ok ()) pushed.split)) rfl

/-- A call whose arguments fail is not made. -/
theorem evalTree_unmade {inside : Option (Inside σ)} {head : Head}
    (single : head ≠ .sequence) {t : Tree} {rest : List Tree} {stop : Stop}
    (ran : evalTree host inside t scope m = .error stop m') :
    evalTree host inside (.call head (t :: rest)) scope m = .error stop m' := by
  have args : evalTrees host inside (t :: rest) scope m = .error stop m' := by
    rw [evalTrees]
    exact Run.bind_of_error ran
  rw [evalTree_applied host inside single, Run.bind_of_ok Run.height_eq]
  exact Run.bind_of_error args

/-- One more invocation, when there is room for it. -/
theorem invocation_of_lt {α : Type} (act : Inside σ → Run σ α) (level : Inside σ)
    (room : m.session.depth < invocationLimit) :
    invocation (some level) act m = counted (act level) m := by
  unfold invocation
  rw [Run.bind_of_ok Run.get_eq, if_neg (Nat.not_le_of_lt room)]

/-- A shorthand that is called runs its body. -/
theorem evalTree_shorthand {body : Tree}
    (found : m.common.store.get? scope name = some (.closure [] (.sequence [body]) none))
    (room : m.session.depth < invocationLimit) :
    evalTree host (inside host (levels + 1)) (.invoke ⟨[name]⟩ []) scope m =
      match evalTree host (inside host levels) body m.common.store.frames.size
        (m.calling scope) with
      | .ok a m' => .ok a m'.letGo.leave
      | .error stop m' => .error stop m'.letGo.leave := by
  have called : evalTree host (inside host (levels + 1)) (.invoke ⟨[name]⟩ []) scope m =
      callValue host (inside host (levels + 1)) (.closure [] (.sequence [body]) none) name
        [] scope m := by
    have nothing : evalTrees host (inside host (levels + 1)) [] scope m =
        .ok () (m.pushAll []) := by
      rw [evalTrees]
      rfl
    rw [Tree.invoke, evalTree_call host _ (by nofun) nothing rfl]
    exact Run.bind_of_ok (lookup_of_get? found)
  have made : newFrame (σ := σ) (m.around none scope) (List.zip [] []) (m.pushAll []) =
      .ok m.common.store.frames.size (m.framed scope []) := rfl
  rw [called, callValue_closure, if_pos (.inl rfl)]
  have room : (m.framed scope []).session.depth < invocationLimit := room
  refine (Run.bind_of_ok made).trans ?_
  change invocation (some (level host levels)) (fun level => holding m.common.store.frames.size
    (level.run (.sequence [body]) m.common.store.frames.size)) (m.framed scope []) = _
  have single : (level host levels).run (.sequence [body]) m.common.store.frames.size
      ((m.framed scope []).enter.hold m.common.store.frames.size) =
        evalTree host (inside host levels) body m.common.store.frames.size (m.calling scope) :=
          evalTree_single _ body
  rw [invocation_of_lt _ _ room, counted_eq, holding_eq, single]
  cases evalTree host (inside host levels) body m.common.store.frames.size (m.calling scope) <;> rfl

/-- A shorthand pushes what its body pushes. -/
theorem evalTree_shorthand_ok {body : Tree} {vs : List Value}
    (found : m.common.store.get? scope name = some (.closure [] (.sequence [body]) none))
    (room : m.session.depth < invocationLimit)
    (ran : evalTree host (inside host levels) body m.common.store.frames.size
      (m.calling scope) = .ok () m')
    (pushed : (m.calling scope).Pushed vs m') :
    evalTree host (inside host (levels + 1)) (.invoke ⟨[name]⟩ []) scope m = .ok () m'.letGo.leave ∧
      m.Pushed vs m'.letGo.leave := by
  rw [evalTree_shorthand found room, ran]
  exact ⟨rfl, pushed.called⟩

/-- A shorthand fails as its body does. -/
theorem evalTree_shorthand_error {body : Tree} {stop : Stop}
    (found : m.common.store.get? scope name = some (.closure [] (.sequence [body]) none))
    (room : m.session.depth < invocationLimit)
    (ran : evalTree host (inside host levels) body m.common.store.frames.size (m.calling scope) =
      .error stop m') (pushed : (m.calling scope).Pushed [] m') :
    evalTree host (inside host (levels + 1)) (.invoke ⟨[name]⟩ []) scope m =
      .error stop m'.letGo.leave ∧ m.Pushed [] m'.letGo.leave := by
  rw [evalTree_shorthand found room, ran]
  exact ⟨rfl, pushed.called⟩

/-- A method that is called pushes what it gives. -/
theorem evalTree_method {o : Object} {method : String} (args : List Value)
    (plain : ∀ v ∈ args, ∀ ps b f, v ≠ .closure ps b f)
    (found : m.common.store.get? scope name = some (.object o))
    (room : m.session.depth < invocationLimit) :
    evalTree host (inside host (levels + 1))
      (.invoke ⟨[name, method]⟩ (args.map .literal)) scope m =
      match runMethod (level host levels) (host.method o method args) m.enter with
      | .ok (some v) m' => .ok () (m'.leave.push v)
      | .ok none m' => .ok () m'.leave
      | .error stop m' => .error stop m'.leave := by
  have literals := evalTrees_literals host (inside host (levels + 1)) args plain scope m
  have receiver : resolve host ⟨[name]⟩ scope m = .ok (.object o) m := by
    unfold resolve
    exact Run.bind_of_ok (lookup_of_get? found)
  rw [Tree.invoke, evalTree_call host _ (by nofun) literals rfl]
  change (resolve host ⟨[name]⟩ scope >>= _) m = _
  rw [Run.bind_of_ok receiver]
  change (invocation (some (level host levels))
    (fun level => runMethod level (host.method o method args)) >>= _) m = _
  have counted := invocation_of_lt (fun level => runMethod level (host.method o method args))
    (level host levels) room
  rw [counted_eq] at counted
  cases ran : runMethod (level host levels) (host.method o method args) m.enter with
  | ok v m' =>
      rw [ran] at counted
      rw [Run.bind_of_ok counted]
      cases v <;> rfl
  | error stop m' =>
      rw [ran] at counted
      exact Run.bind_of_error counted

end PeerScript
