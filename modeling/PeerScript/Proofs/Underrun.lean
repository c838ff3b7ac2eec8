import PeerScript.Proofs.Running

/-!
# Why a run breaks

A run breaks when a call takes more values off the stack than its arguments have left there.
`Underruns` says that a task comes to such a call, and `breaks_iff_underruns` that nothing else
breaks a run: a fault of any kind ends a run in another way.

What can be asked of a machine is a `Task`.  A task with some number of levels leads to other tasks
of the same number, whose trees and methods are parts of its own, or of a smaller one, when an
invocation starts; the proof goes the same way.
-/

set_option autoImplicit false

namespace PeerScript

variable {σ α β : Type} {m : Machine σ}

namespace Run

/-! ## Runs that break -/

/-- The run breaks when it starts from the machine. -/
def Breaks (r : Run σ α) (m : Machine σ) : Prop := ∃ m', r m = .error .broken m'

theorem breaks_bind {r : Run σ α} {f : α → Run σ β} :
    Breaks (r >>= f) m ↔ Breaks r m ∨ ∃ a m', r m = .ok a m' ∧ Breaks (f a) m' := by
  constructor
  · rintro ⟨m', broke⟩
    cases first : r m with
    | ok a m₁ =>
        rw [bind_of_ok first] at broke
        exact .inr ⟨a, m₁, rfl, m', broke⟩
    | error stop m₁ =>
        rw [bind_of_error first] at broke
        cases broke
        exact .inl ⟨_, first⟩
  · rintro (⟨m', broke⟩ | ⟨a, m₁, first, m', broke⟩)
    · exact ⟨m', bind_of_error broke⟩
    · exact ⟨m', (bind_of_ok first).trans broke⟩

theorem breaks_bind_of_ok {r : Run σ α} {f : α → Run σ β} {a : α} {m' : Machine σ}
    (h : r m = .ok a m') : Breaks (r >>= f) m ↔ Breaks (f a) m' := by
  unfold Breaks
  rw [bind_of_ok h]

theorem breaks_splitOff {base : Nat} :
    Breaks (splitOff base) m ↔ m.session.stack.length < base := by
  constructor
  · rintro ⟨m', broke⟩
    refine Nat.lt_of_not_le fun high => ?_
    rw [splitOff_of_le high] at broke
    exact nomatch broke
  · exact fun low => ⟨m, splitOff_of_lt low⟩

theorem breaks_caught {r : Run σ Unit} : Breaks (caught r) m ↔ Breaks r m := by
  unfold Breaks caught
  cases r m with
  | ok _ _ => simp
  | error stop _ => cases stop <;> simp

/-- The run never breaks. -/
def Unbroken (r : Run σ α) : Prop := ∀ m, ¬ Breaks r m

namespace Unbroken

theorem bind {r : Run σ α} {f : α → Run σ β} (h : Unbroken r) (next : ∀ a, Unbroken (f a)) :
    Unbroken (r >>= f) := by
  intro m broke
  rcases breaks_bind.mp broke with broke | ⟨a, m', -, broke⟩
  · exact h m broke
  · exact next a m' broke

theorem of_ok {r : Run σ α} (h : ∀ m, ∃ a m', r m = .ok a m') : Unbroken r := by
  rintro m ⟨m', broke⟩
  obtain ⟨a, m₁, ok⟩ := h m
  exact nomatch ok.symm.trans broke

theorem pure (a : α) : Unbroken (Pure.pure a : Run σ α) := of_ok fun m => ⟨a, m, rfl⟩

theorem get : Unbroken (get : Run σ (Machine σ)) := of_ok fun m => ⟨m, m, rfl⟩

theorem modify (f : Machine σ → Machine σ) : Unbroken (modify f : Run σ PUnit) :=
  of_ok fun m => ⟨_, f m, rfl⟩

theorem push (v : Value) : Unbroken (push v : Run σ Unit) := modify _

theorem fail (fault : Fault) : Unbroken (fail fault : Run σ α) := by
  rintro m ⟨m', broke⟩
  exact nomatch broke

theorem ofExcept (result : Except Fault α) : Unbroken (ofExcept result : Run σ α) := by
  cases result with
  | ok a => exact pure a
  | error fault => exact fail fault

theorem pop : Unbroken (pop : Run σ Value) := by
  refine bind get fun m => ?_
  split
  · exact fail _
  · exact bind (modify _) fun _ => pure _

end Unbroken

/-- Builtins fail, but they do not break. -/
theorem unbroken_builtin (host : Host σ) (b : Builtin) (args : List Value) :
    Unbroken (b.run host args) := by
  have noArgs : ∀ b : Builtin, Unbroken (b.noArgs args : Run σ Unit) := by
    intro b
    unfold Builtin.noArgs
    split
    · exact .pure ()
    · exact .fail _
  have single : ∀ b : Builtin, Unbroken (b.single args : Run σ Value) := by
    intro b
    unfold Builtin.single
    split
    · exact .pure _
    · exact .fail _
  cases b with
  | assert =>
      rw [Builtin.run]
      split
      · exact .fail _
      · split
        · exact .pure _
        · exact .fail _
  | print => exact .bind .get fun _ => .bind (.modify _) fun _ => .pure _
  | depth =>
      exact .bind (noArgs _) fun _ => .bind (.of_ok fun m => ⟨_, m, height_eq⟩) fun _ => .pure _
  | drop => exact .bind (noArgs _) fun _ => .bind .pop fun _ => .pure _
  | dup =>
      refine .bind (noArgs _) fun _ => .bind .get fun m => ?_
      split
      · exact .fail _
      · exact .pure _
  | swap =>
      refine .bind (noArgs _) fun _ => .bind .get fun m => ?_
      split
      · exact .bind (.modify _) fun _ => .pure _
      · exact .fail _
  | clear => exact .bind (noArgs _) fun _ => .bind (.modify _) fun _ => .pure _
  | len =>
      refine .bind (single _) fun v => ?_
      split
      · exact .pure _
      · exact .pure _
      · exact .fail _
  | str => exact .bind (single _) fun _ => .bind .get fun _ => .pure _
  | type => exact .bind (single _) fun _ => .pure _

end Run

open Run

variable (host : Host σ)

/-! ## Tasks -/

/-- What a machine can be asked to do. -/
inductive Task (σ : Type) where
  | tree (t : Tree) (scope : FrameId)
  | trees (ts : List Tree) (scope : FrameId)
  | call (callee : Value) (name : String) (args : List Value) (scope : FrameId)
  | path (p : Path) (args : List Value) (scope : FrameId)
  | method (act : Method σ)

/-- What can be done inside of an invocation when at most `levels` more may nest. -/
def level (levels : Nat) : Inside σ where
  run tree scope := evalTree host (inside host levels) tree scope
  call callee name args scope := callValue host (inside host levels) callee name args scope

/-- Does what a task asks for, with at most as many nested invocations as there are levels. -/
def Task.run (levels : Nat) : Task σ → Run σ Unit
  | .tree t scope => evalTree host (inside host levels) t scope
  | .trees ts scope => evalTrees host (inside host levels) ts scope
  | .call callee name args scope => callValue host (inside host levels) callee name args scope
  | .path p args scope => callPath host (inside host levels) p args scope
  | .method act => do let _ ← runMethod (level host levels) act

theorem breaks_method {levels : Nat} {act : Method σ} :
    Breaks ((Task.method act).run host levels) m ↔
      Breaks (runMethod (level host levels) act) m := by
  constructor
  · rintro broke
    rcases breaks_bind.mp broke with broke | ⟨v, m', -, broke⟩
    · exact broke
    · exact absurd broke (Unbroken.pure () m')
  · exact fun broke => breaks_bind.mpr (.inl broke)

/-- The task comes to a call whose arguments leave the stack lower than it was in front of them, or
to a path without names, which no text spells. -/
inductive Underruns : Nat → Task σ → Machine σ → Prop
  | low {levels : Nat} {head : Head} {args : List Tree} {scope : FrameId} {m m' : Machine σ} :
      head ≠ .sequence → evalTrees host (inside host levels) args scope m = .ok () m' →
      m'.session.stack.length < m.session.stack.length →
      Underruns levels (.tree (.call head args) scope) m
  | nameless {levels : Nat} {scope : FrameId} {v : Value} {m m' : Machine σ} :
      lookup (Path.mk []).root scope m = .ok v m' →
      Underruns levels (.tree (.reference ⟨[]⟩) scope) m
  | argument {levels : Nat} {head : Head} {args : List Tree} {scope : FrameId} {m : Machine σ} :
      Underruns levels (.trees args scope) m → Underruns levels (.tree (.call head args) scope) m
  | first {levels : Nat} {t : Tree} {rest : List Tree} {scope : FrameId} {m : Machine σ} :
      Underruns levels (.tree t scope) m → Underruns levels (.trees (t :: rest) scope) m
  | later {levels : Nat} {t : Tree} {rest : List Tree} {scope : FrameId} {m m' : Machine σ} :
      evalTree host (inside host levels) t scope m = .ok () m' →
      Underruns levels (.trees rest scope) m' → Underruns levels (.trees (t :: rest) scope) m
  | invoked {levels : Nat} {path : Path} {args : List Tree} {values : List Value} {scope : FrameId}
      {m m₁ m₂ : Machine σ} :
      evalTrees host (inside host levels) args scope m = .ok () m₁ →
      splitOff m.session.stack.length m₁ = .ok values m₂ →
      Underruns levels (.path path values scope) m₂ →
      Underruns levels (.tree (.call (.invoke path) args) scope) m
  | named {levels : Nat} {name : String} {callee : Value} {args : List Value} {scope : FrameId}
      {m m' : Machine σ} :
      lookup name scope m = .ok callee m' → Underruns levels (.call callee name args scope) m' →
      Underruns levels (.path ⟨[name]⟩ args scope) m
  | member {levels : Nat} {receiver : List String} {method : String} {o : Object}
      {args : List Value} {scope : FrameId} {m m' : Machine σ} :
      receiver ≠ [] → resolve host ⟨receiver⟩ scope m = .ok (.object o) m' →
      m'.session.depth < invocationLimit →
      Underruns levels (.method (host.method o method args)) m'.enter →
      Underruns (levels + 1) (.path ⟨receiver ++ [method]⟩ args scope) m
  | body {levels : Nat} {params : List String} {body : Tree} {home : Option FrameId} {name : String}
      {args : List Value} {scope parent frame : FrameId} {m m₁ m₂ : Machine σ} :
      frameAround home scope m = .ok parent m₁ →
      (params.isEmpty = true ∨ params.length = args.length) →
      newFrame parent (params.zip args) (if params.isEmpty then m₁.pushAll args else m₁) =
        .ok frame m₂ →
      m₂.session.depth < invocationLimit →
      Underruns levels (.tree body frame) (m₂.enter.hold frame) →
      Underruns (levels + 1) (.call (.closure params body home) name args scope) m
  | pushes {levels : Nat} {v : Value} {next : Method σ} {m : Machine σ} :
      Underruns levels (.method next) (m.push v) → Underruns levels (.method (.push v next)) m
  | calls {levels : Nat} {callee : Value} {name : String} {args : List Value}
      {next : Except Fault Unit → Method σ} {m : Machine σ} :
      Underruns levels (.call callee name args m.session.ambient) m →
      Underruns levels (.method (.call callee name args next)) m
  | called {levels : Nat} {callee : Value} {name : String} {args : List Value}
      {next : Except Fault Unit → Method σ} {result : Except Fault Unit} {m m' : Machine σ} :
      caught (callValue host (inside host levels) callee name args m.session.ambient) m =
        .ok result m' →
      Underruns levels (.method (next result)) m' →
      Underruns levels (.method (.call callee name args next)) m
  | runs {levels : Nat} {t : Tree} {next : Except Fault Unit → Method σ} {m : Machine σ} :
      Underruns levels (.tree t m.session.ambient) m → Underruns levels (.method (.run t next)) m
  | ran {levels : Nat} {t : Tree} {next : Except Fault Unit → Method σ}
      {result : Except Fault Unit} {m m' : Machine σ} :
      caught (evalTree host (inside host levels) t m.session.ambient) m = .ok result m' →
      Underruns levels (.method (next result)) m' → Underruns levels (.method (.run t next)) m
  | runsIn {levels : Nat} {t : Tree} {scope : FrameId} {next : Except Fault Unit → Method σ}
      {m : Machine σ} :
      Underruns levels (.tree t scope) (m.hold scope) →
      Underruns levels (.method (.runIn t scope next)) m
  | ranIn {levels : Nat} {t : Tree} {scope : FrameId} {next : Except Fault Unit → Method σ}
      {result : Except Fault Unit} {m m' : Machine σ} :
      caught (holding scope (evalTree host (inside host levels) t scope)) m = .ok result m' →
      Underruns levels (.method (next result)) m' →
      Underruns levels (.method (.runIn t scope next)) m
  | looks {levels : Nat} {next : Session → Common σ → Method σ} {m : Machine σ} :
      Underruns levels (.method (next m.session (m.common.suspend m.session))) m →
      Underruns levels (.method (.look next)) m
  | changes {levels : Nat} {act : Common σ → Common σ} {next : Method σ} {m : Machine σ} :
      Underruns levels (.method next)
        { m with common :=
          { act (m.common.suspend m.session) with
            held := m.common.held, watched := m.common.watched } } →
      Underruns levels (.method (.change act next)) m

/-! ## Parts of a run -/

theorem unbroken_lookup (name : String) (scope : FrameId) :
    Unbroken (lookup name scope : Run σ Value) := by
  refine .bind .get fun m => ?_
  split
  · exact .pure _
  · split
    · exact .pure _
    · exact .fail _

theorem unbroken_membersOf (v : Value) (names : List String) :
    Unbroken (membersOf host v names) := by
  induction names generalizing v with
  | nil => exact .pure v
  | cons name rest ih =>
      refine .bind (.bind .get fun m => ?_) ih
      dsimp only
      split
      · exact .pure _
      · exact .fail _

theorem breaks_resolve {path : Path} {scope : FrameId} :
    Breaks (resolve host path scope) m ↔
      path.segments = [] ∧ ∃ v m', lookup path.root scope m = .ok v m' := by
  obtain ⟨_ | ⟨first, others⟩⟩ := path
  · rw [resolve, breaks_bind]
    constructor
    · rintro (broke | ⟨v, m', found, -⟩)
      · exact absurd broke (unbroken_lookup _ scope m)
      · exact ⟨rfl, v, m', found⟩
    · rintro ⟨-, v, m', found⟩
      exact .inr ⟨v, m', found, m', rfl⟩
  · constructor
    · rintro broke
      have unbroken : Unbroken (resolve host ⟨first :: others⟩ scope) :=
        .bind (unbroken_lookup _ scope) fun v => unbroken_membersOf host v others
      exact absurd broke (unbroken m)
    · rintro ⟨empty, -⟩
      exact nomatch empty

theorem unbroken_frameAround (home : Option FrameId) (scope : FrameId) :
    Unbroken (frameAround home scope : Run σ FrameId) := by
  unfold frameAround
  split
  · exact .pure _
  · refine .bind .get fun m => ?_
    split
    · exact .pure _
    · exact .pure _

theorem breaks_counted {act : Run σ α} : Breaks (counted act) m ↔ Breaks act m.enter := by
  unfold Breaks
  rw [counted_eq]
  cases act m.enter with
  | ok _ _ => simp
  | error stop _ => cases stop <;> simp

theorem breaks_holding {frame : FrameId} {act : Run σ α} :
    Breaks (holding frame act) m ↔ Breaks act (m.hold frame) := by
  unfold Breaks
  rw [holding_eq]
  cases act (m.hold frame) with
  | ok _ _ => simp
  | error stop _ => cases stop <;> simp

theorem breaks_invocation {inside : Option (Inside σ)} {act : Inside σ → Run σ α} :
    Breaks (invocation inside act) m ↔
      m.session.depth < invocationLimit ∧
        ∃ level, inside = some level ∧ Breaks (act level) m.enter := by
  have step := invocation_eq inside act m
  by_cases deep : invocationLimit ≤ m.session.depth
  · rw [if_pos deep] at step
    constructor
    · rintro ⟨m', broke⟩
      cases step.symm.trans broke
    · rintro ⟨shallow, -⟩
      exact absurd deep (Nat.not_le_of_lt shallow)
  · rw [if_neg deep] at step
    cases inside with
    | none =>
        constructor
        · rintro ⟨m', broke⟩
          cases step.symm.trans broke
        · rintro ⟨-, level, none, -⟩
          cases none
    | some level =>
        unfold Breaks
        rw [step]
        refine breaks_counted.trans ⟨fun broke => ⟨Nat.lt_of_not_le deep, level, rfl, broke⟩, ?_⟩
        rintro ⟨-, _, ⟨⟩, broke⟩
        exact broke

/-- The body of a function breaks the run that has made a frame for it. -/
theorem breaks_body {inside : Option (Inside σ)} {parent : FrameId}
    {bindings : List (String × Value)} {body : Tree} :
    Breaks (newFrame parent bindings >>= fun frame =>
        invocation inside fun level => holding frame (level.run body frame)) m ↔
      ∃ frame m', newFrame parent bindings m = .ok frame m' ∧
        m'.session.depth < invocationLimit ∧
        ∃ level, inside = some level ∧ Breaks (level.run body frame) (m'.enter.hold frame) := by
  rw [breaks_bind]
  constructor
  · rintro (⟨m', broke⟩ | ⟨frame, m', made, broke⟩)
    · exact nomatch broke
    · obtain ⟨shallow, level, some, broke⟩ := breaks_invocation.mp broke
      exact ⟨frame, m', made, shallow, level, some, breaks_holding.mp broke⟩
  · rintro ⟨frame, m', made, shallow, level, some, broke⟩
    exact .inr ⟨frame, m', made,
      breaks_invocation.mpr ⟨shallow, level, some, breaks_holding.mpr broke⟩⟩

theorem breaks_callValue {inside : Option (Inside σ)} {params : List String} {body : Tree}
    {home : Option FrameId} {name : String} {args : List Value} {scope : FrameId} :
    Breaks (callValue host inside (.closure params body home) name args scope) m ↔
      ∃ parent m₁ frame m₂, frameAround home scope m = .ok parent m₁ ∧
        (params.isEmpty = true ∨ params.length = args.length) ∧
        newFrame parent (params.zip args) (if params.isEmpty then m₁.pushAll args else m₁) =
          .ok frame m₂ ∧
        m₂.session.depth < invocationLimit ∧
        ∃ level, inside = some level ∧ Breaks (level.run body frame) (m₂.enter.hold frame) := by
  have step : callValue host inside (.closure params body home) name args scope =
      (frameAround home scope >>= fun parent =>
        if params.isEmpty then
          modify (·.pushAll args) >>= fun _ =>
            newFrame parent (params.zip args) >>= fun frame =>
              invocation inside fun level => holding frame (level.run body frame)
        else if params.length ≠ args.length then
          Run.fail (.arity name params.length args.length) >>= fun (_ : PUnit) =>
            newFrame parent (params.zip args) >>= fun frame =>
              invocation inside fun level => holding frame (level.run body frame)
        else
          newFrame parent (params.zip args) >>= fun frame =>
            invocation inside fun level => holding frame (level.run body frame)) := by
    rw [callValue]
  have pushed : ∀ m₁ : Machine σ,
      (modify (·.pushAll args) : Run σ PUnit) m₁ = .ok ⟨⟩ (m₁.pushAll args) := fun _ => rfl
  rw [step, breaks_bind]
  constructor
  · rintro (broke | ⟨parent, m₁, around, broke⟩)
    · exact absurd broke (unbroken_frameAround home scope m)
    · split at broke
      · rename_i noParams
        rw [breaks_bind_of_ok (pushed m₁)] at broke
        obtain ⟨frame, m₂, made, more⟩ := breaks_body.mp broke
        exact ⟨parent, m₁, frame, m₂, around, .inl noParams,
          by rw [if_pos noParams]; exact made, more⟩
      · rename_i someParams
        split at broke
        · rcases breaks_bind.mp broke with broke | ⟨_, _, ok, -⟩
          · exact absurd broke (Unbroken.fail _ m₁)
          · exact nomatch ok
        · rename_i enough
          obtain ⟨frame, m₂, made, more⟩ := breaks_body.mp broke
          exact ⟨parent, m₁, frame, m₂, around, .inr (Decidable.not_not.mp enough),
            by rw [if_neg someParams]; exact made, more⟩
  · rintro ⟨parent, m₁, frame, m₂, around, fits, made, more⟩
    refine .inr ⟨parent, m₁, around, ?_⟩
    split
    · rename_i noParams
      rw [if_pos noParams] at made
      rw [breaks_bind_of_ok (pushed m₁)]
      exact breaks_body.mpr ⟨frame, m₂, made, more⟩
    · rename_i someParams
      rw [if_neg someParams] at made
      rw [if_neg (not_not_intro (fits.resolve_left someParams))]
      exact breaks_body.mpr ⟨frame, m₂, made, more⟩

/-- Of all heads, only an invocation can break a run with the values of its arguments. -/
theorem breaks_dispatch {inside : Option (Inside σ)} {head : Head} {values : List Value}
    {scope : FrameId} : Breaks (dispatch host inside head values scope) m ↔
      ∃ path, head = .invoke path ∧ Breaks (callPath host inside path values scope) m := by
  have other : Unbroken (dispatch host inside head values scope) ∨ ∃ path, head = .invoke path := by
    cases head with
    | sequence => exact .inl (.modify _)
    | bind name =>
        refine .inl ?_
        rw [dispatch]
        split
        · exact .fail _
        · exact .bind (.modify _) fun _ => .modify _
    | op operator => exact .inl (.bind (.ofExcept _) fun _ => .push _)
    | invoke path => exact .inr ⟨path, rfl⟩
    | construct typeName =>
        exact .inl (.bind .get fun _ => .bind (.ofExcept _) fun _ =>
          .bind (.of_ok fun _ => ⟨_, _, rfl⟩) fun _ => .push _)
    | list => exact .inl (.push _)
  constructor
  · rintro broke
    rcases other with unbroken | ⟨path, rfl⟩
    · exact absurd broke (unbroken m)
    · exact ⟨path, rfl, broke⟩
  · rintro ⟨path, rfl, broke⟩
    exact broke

theorem breaks_call {inside : Option (Inside σ)} {head : Head} (single : head ≠ .sequence)
    {args : List Tree} {scope : FrameId} : Breaks (evalTree host inside (.call head args) scope) m ↔
      Breaks (evalTrees host inside args scope) m ∨
      ∃ m₁, evalTrees host inside args scope m = .ok () m₁ ∧
        (m₁.session.stack.length < m.session.stack.length ∨
          ∃ values m₂ path, splitOff m.session.stack.length m₁ = .ok values m₂ ∧
            head = .invoke path ∧ Breaks (callPath host inside path values scope) m₂) := by
  rw [evalTree]
  · rw [breaks_bind_of_ok height_eq, breaks_bind]
    simp only [breaks_bind, breaks_splitOff, breaks_dispatch]
    constructor
    · rintro (broke | ⟨_, m₁, ran, low | ⟨values, m₂, split, path, head, broke⟩⟩)
      · exact .inl broke
      · exact .inr ⟨m₁, ran, .inl low⟩
      · exact .inr ⟨m₁, ran, .inr ⟨values, m₂, path, split, head, broke⟩⟩
    · rintro (broke | ⟨m₁, ran, low | ⟨values, m₂, path, split, head, broke⟩⟩)
      · exact .inl broke
      · exact .inr ⟨(), m₁, ran, .inl low⟩
      · exact .inr ⟨(), m₁, ran, .inr ⟨values, m₂, split, path, head, broke⟩⟩
  · exact single

/-! ## Tasks that break -/

section Breaking

variable {levels : Nat}

/-- What a task that breaks the run leads to, for all tasks with some number of levels. -/
def Explained (levels : Nat) : Prop :=
  ∀ (task : Task σ) (m : Machine σ), Breaks (task.run host levels) m → Underruns host levels task m

theorem underruns_call (below : ∀ fewer, levels = fewer + 1 → Explained host fewer) {callee : Value}
    {name : String} {args : List Value} {scope : FrameId}
    (broke : Breaks (callValue host (inside host levels) callee name args scope) m) :
    Underruns host levels (.call callee name args scope) m := by
  cases callee with
  | closure params body home =>
      obtain ⟨parent, m₁, frame, m₂, around, fits, made, shallow, level, some, broke⟩ :=
        (breaks_callValue host).mp broke
      cases levels with
      | zero => exact nomatch some
      | succ fewer =>
          cases some
          exact .body around fits made shallow (below fewer rfl (.tree body frame) _ broke)
  | native b =>
      refine absurd broke (Unbroken.bind (unbroken_builtin host b args) (fun v => ?_) m)
      cases v with
      | none => exact .pure ()
      | some v => exact .push v
  | _ => exact absurd broke (Unbroken.fail _ m)

theorem underruns_path (below : ∀ fewer, levels = fewer + 1 → Explained host fewer) {p : Path}
    {args : List Value} {scope : FrameId}
    (broke : Breaks (callPath host (inside host levels) p args scope) m) :
    Underruns host levels (.path p args scope) m := by
  obtain ⟨segments⟩ := p
  rcases segments.eq_nil_or_concat with rfl | ⟨receiver, last, rfl⟩
  · exact absurd broke (Unbroken.fail _ m)
  rw [callPath] at broke
  simp only [List.concat_eq_append, List.getLast?_append, List.getLast?_singleton, Option.some_or,
    List.dropLast_concat] at broke
  cases receiver with
  | nil =>
      rcases breaks_bind.mp broke with broke | ⟨callee, m₁, found, broke⟩
      · exact absurd broke (unbroken_lookup last scope m)
      · exact .named found (underruns_call host below broke)
  | cons first others =>
      rcases breaks_bind.mp broke with broke | ⟨callee, m₁, found, broke⟩
      · exact nomatch ((breaks_resolve host).mp broke).1
      · cases callee with
        | object o =>
            rcases breaks_bind.mp broke with broke | ⟨v, m₂, -, broke⟩
            · obtain ⟨shallow, level, some, broke⟩ := breaks_invocation.mp broke
              cases levels with
              | zero => exact nomatch some
              | succ fewer =>
                  cases some
                  rw [List.concat_eq_append]
                  exact .member (List.cons_ne_nil _ _) found shallow
                    (below fewer rfl (.method _) _ ((breaks_method host).mpr broke))
            · cases v with
              | none => exact absurd broke (Unbroken.pure () m₂)
              | some v => exact absurd broke (Unbroken.push v m₂)
        | _ => exact absurd broke (Unbroken.fail _ m₁)

mutual

theorem underruns_tree (below : ∀ fewer, levels = fewer + 1 → Explained host fewer) :
    ∀ (t : Tree) {scope : FrameId} {m : Machine σ},
      Breaks (evalTree host (inside host levels) t scope) m →
      Underruns host levels (.tree t scope) m
  | .literal v, scope, m, broke => by
      have unbroken : Unbroken (evalTree host (inside host levels) (.literal v) scope) := by
        cases v with
        | closure ps b f =>
            rw [evalTree]
            exact .bind (.modify _) fun _ => .push _
        | _ => rw [evalTree]; exact .push _; simp
      exact absurd broke (unbroken m)
  | .reference path, scope, m, broke => by
      rw [evalTree] at broke
      rcases breaks_bind.mp broke with broke | ⟨v, m', -, broke⟩
      · obtain ⟨segments⟩ := path
        obtain ⟨rfl, v, m', found⟩ := (breaks_resolve host).mp broke
        exact .nameless found
      · exact absurd broke (Unbroken.push v m')
  | .call head args, scope, m, broke => by
      by_cases sequence : head = .sequence
      · subst sequence
        rw [evalTree] at broke
        exact .argument (underruns_trees below args broke)
      · rcases (breaks_call host sequence).mp broke with
          broke | ⟨m₁, ran, low | ⟨values, m₂, path, split, rfl, deeper⟩⟩
        · exact .argument (underruns_trees below args broke)
        · exact .low sequence ran low
        · exact .invoked ran split (underruns_path host below deeper)

theorem underruns_trees (below : ∀ fewer, levels = fewer + 1 → Explained host fewer) :
    ∀ (ts : List Tree) {scope : FrameId} {m : Machine σ},
      Breaks (evalTrees host (inside host levels) ts scope) m →
      Underruns host levels (.trees ts scope) m
  | [], _, m, broke => absurd broke (Unbroken.pure () m)
  | t :: rest, scope, m, broke => by
      rw [evalTrees] at broke
      rcases breaks_bind.mp broke with broke | ⟨_, m', ran, broke⟩
      · exact .first (underruns_tree below t broke)
      · exact .later ran (underruns_trees below rest broke)

end

theorem underruns_method (below : ∀ fewer, levels = fewer + 1 → Explained host fewer)
    (act : Method σ) {m : Machine σ} (broke : Breaks (runMethod (level host levels) act) m) :
    Underruns host levels (.method act) m := by
  induction act generalizing m with
  | finish result => exact absurd broke (Unbroken.ofExcept result m)
  | push v next ih => exact .pushes (ih ((breaks_bind_of_ok (push_eq v)).mp broke))
  | call callee name args next ih =>
      rcases breaks_bind.mp ((breaks_bind_of_ok get_eq).mp broke) with
        broke | ⟨result, m', ran, broke⟩
      · exact .calls (underruns_call host below (breaks_caught.mp broke))
      · exact .called ran (ih result broke)
  | run t next ih =>
      rcases breaks_bind.mp ((breaks_bind_of_ok get_eq).mp broke) with
        broke | ⟨result, m', ran, broke⟩
      · exact .runs (underruns_tree host below t (breaks_caught.mp broke))
      · exact .ran ran (ih result broke)
  | runIn t scope next ih =>
      rcases breaks_bind.mp broke with broke | ⟨result, m', ran, broke⟩
      · exact .runsIn (underruns_tree host below t (breaks_holding.mp (breaks_caught.mp broke)))
      · exact .ranIn ran (ih result broke)
  | look next ih => exact .looks (ih _ _ broke)
  | change act next ih => exact .changes (ih broke)
  | stuck =>
      obtain ⟨m', broke⟩ := broke
      exact nomatch broke

theorem explained_step (below : ∀ fewer, levels = fewer + 1 → Explained host fewer) :
    Explained host levels := by
  intro task m broke
  cases task with
  | tree t scope => exact underruns_tree host below t broke
  | trees ts scope => exact underruns_trees host below ts broke
  | call callee name args scope => exact underruns_call host below broke
  | path p args scope => exact underruns_path host below broke
  | method act => exact underruns_method host below act ((breaks_method host).mp broke)

theorem explained (levels : Nat) : Explained host levels := by
  induction levels with
  | zero => exact explained_step host fun fewer same => nomatch same
  | succ levels ih =>
      refine explained_step host fun fewer same => ?_
      cases same
      exact ih

end Breaking

/-! ## Tasks that underrun -/

theorem callPath_member {inside : Option (Inside σ)} {receiver : List String} (some : receiver ≠ [])
    (method : String) (args : List Value) (scope : FrameId) :
    callPath host inside ⟨receiver ++ [method]⟩ args scope =
      (resolve host ⟨receiver⟩ scope >>= fun
        | .object o =>
            (invocation inside fun level => runMethod level (host.method o method args)) >>= fun
              | .some v => push v
              | .none => pure ()
        | other => Run.fail (.unknownMember other.typeName method)) := by
  obtain ⟨first, others, rfl⟩ := List.exists_cons_of_ne_nil some
  have last : (first :: others ++ [method]).getLast? = .some method := List.getLast?_concat
  have front : (first :: others ++ [method]).dropLast = first :: others := List.dropLast_concat
  unfold callPath
  dsimp only
  generalize (first :: others ++ [method]).getLast? = x,
    (first :: others ++ [method]).dropLast = y at last front ⊢
  subst last front
  rfl

theorem breaks_of_underruns {levels : Nat} {task : Task σ} (h : Underruns host levels task m) :
    Breaks (task.run host levels) m := by
  induction h with
  | low single ran low => exact (breaks_call host single).mpr (.inr ⟨_, ran, .inl low⟩)
  | nameless found =>
      rw [Task.run, evalTree]
      exact breaks_bind.mpr (.inl ((breaks_resolve host).mpr ⟨rfl, _, _, found⟩))
  | @argument levels head args scope m _ ih =>
      by_cases sequence : head = .sequence
      · subst sequence
        rw [Task.run, evalTree]
        exact ih
      · exact (breaks_call host sequence).mpr (.inl ih)
  | first _ ih => exact breaks_bind.mpr (.inl ih)
  | later ran _ ih => exact breaks_bind.mpr (.inr ⟨(), _, ran, ih⟩)
  | invoked ran split _ ih =>
      exact (breaks_call host Head.noConfusion).mpr
        (.inr ⟨_, ran, .inr ⟨_, _, _, split, rfl, ih⟩⟩)
  | named found _ ih => exact breaks_bind.mpr (.inr ⟨_, _, found, ih⟩)
  | member some found shallow _ ih =>
      rw [Task.run, callPath_member host some]
      refine breaks_bind.mpr (.inr ⟨_, _, found, breaks_bind.mpr (.inl ?_)⟩)
      exact breaks_invocation.mpr ⟨shallow, _, rfl, (breaks_method host).mp ih⟩
  | body around fits made shallow _ ih =>
      exact (breaks_callValue host).mpr ⟨_, _, _, _, around, fits, made, shallow, _, rfl, ih⟩
  | pushes _ ih => exact ih
  | calls _ ih =>
      refine (breaks_method host).mpr ((breaks_bind_of_ok get_eq).mpr (breaks_bind.mpr (.inl ?_)))
      exact breaks_caught.mpr ih
  | called ran _ ih =>
      refine (breaks_method host).mpr ((breaks_bind_of_ok get_eq).mpr (breaks_bind.mpr (.inr ?_)))
      exact ⟨_, _, ran, (breaks_method host).mp ih⟩
  | runs _ ih =>
      refine (breaks_method host).mpr ((breaks_bind_of_ok get_eq).mpr (breaks_bind.mpr (.inl ?_)))
      exact breaks_caught.mpr ih
  | ran ran _ ih =>
      refine (breaks_method host).mpr ((breaks_bind_of_ok get_eq).mpr (breaks_bind.mpr (.inr ?_)))
      exact ⟨_, _, ran, (breaks_method host).mp ih⟩
  | runsIn _ ih =>
      refine (breaks_method host).mpr (breaks_bind.mpr (.inl ?_))
      exact breaks_caught.mpr (breaks_holding.mpr ih)
  | ranIn ran _ ih =>
      refine (breaks_method host).mpr (breaks_bind.mpr (.inr ?_))
      exact ⟨_, _, ran, (breaks_method host).mp ih⟩
  | looks _ ih => exact ih
  | changes _ ih => exact ih

/-- A run breaks exactly if it comes to a call whose arguments leave the stack lower than it was in
front of them. -/
theorem breaks_iff_underruns {levels : Nat} {task : Task σ} :
    Breaks (task.run host levels) m ↔ Underruns host levels task m :=
  ⟨explained host levels task m, breaks_of_underruns host⟩

end PeerScript
