import PeerScript.Proofs.Steps

/-!
# What is under way

While a tree runs, other trees run inside of it: its arguments, the bodies of the functions that it
calls, and what methods run.  `Nests` is what every step keeps: of the trees under way, each one is
deeper than the one around it or smaller than it.  So they weigh less and less (`descends`).
-/

set_option autoImplicit false

namespace PeerScript

variable {σ α : Type} {m : Machine σ}

/-! ## Weights -/

mutual

/-- The number of trees in a tree, itself included. -/
def Tree.size : Tree → Nat
  | .literal _ | .reference _ => 1
  | .call _ args => 1 + Tree.sizes args

/-- The number of trees in trees. -/
def Tree.sizes : List Tree → Nat
  | [] => 0
  | t :: rest => t.size + Tree.sizes rest

end

theorem Tree.size_le_sizes {t : Tree} {ts : List Tree} (mem : t ∈ ts) : t.size ≤ Tree.sizes ts := by
  induction ts with
  | nil => cases mem
  | cons first rest ih =>
      rw [Tree.sizes]
      rcases List.mem_cons.mp mem with rfl | mem
      · omega
      · have := ih mem
        omega

/-- An argument is smaller than the call. -/
theorem Tree.size_lt_call {t : Tree} {args : List Tree} (mem : t ∈ args) (head : Head) :
    t.size < (Tree.call head args).size := by
  have := Tree.size_le_sizes mem
  rw [Tree.size]
  omega

/-- What bounds a tree that was started at some depth: the invocations that may still nest, and then
its own size. -/
def weight (depth : Nat) (t : Tree) : Nat × Nat := (invocationLimit - depth, t.size)

/-- The weight of a tree that waits. -/
def Waiting.weight? : Waiting σ → Option (Nat × Nat)
  | .tree t depth => some (weight depth t)
  | _ => none

/-- The weights of the trees under way, innermost first. -/
def Config.underWay (c : Config σ) : List (Nat × Nat) :=
  (match c.control with
    | .task (.tree t _) => [weight c.machine.session.depth t]
    | _ => []) ++ c.waiting.filterMap Waiting.weight?

/-! ## Order -/

/-- What waits is in order, at the given depth.  A tree that is started there has to be smaller than
the given size, if there is one: that is the size of the tree around it in the same invocation. -/
inductive Nests : List (Waiting σ) → Nat → Option Nat → Prop
  | nil {depth : Nat} : Nests [] depth none
  | tree {waiting : List (Waiting σ)} {depth : Nat} {room : Option Nat} {t : Tree} :
      Nests waiting depth room → (∀ n ∈ room, t.size < n) →
      Nests (.tree t depth :: waiting) depth (some t.size)
  | trees {waiting : List (Waiting σ)} {depth n : Nat} {ts : List Tree} {scope : FrameId} :
      Nests waiting depth (some n) → (∀ t ∈ ts, t.size < n) →
      Nests (.trees ts scope :: waiting) depth (some n)
  | head {waiting : List (Waiting σ)} {depth n : Nat} {head : Head} {base : Nat} {scope : FrameId} :
      Nests waiting depth (some n) → Nests (.head head base scope :: waiting) depth (some n)
  | push {waiting : List (Waiting σ)} {depth : Nat} {room : Option Nat} :
      Nests waiting depth room → Nests (.push :: waiting) depth room
  -- an invocation may run any tree, and counts
  | leave {waiting : List (Waiting σ)} {depth : Nat} {room : Option Nat} :
      Nests waiting depth room → depth < invocationLimit →
      Nests (.leave :: waiting) (depth + 1) none
  | letGo {waiting : List (Waiting σ)} {depth : Nat} {room : Option Nat} :
      Nests waiting depth room → Nests (.letGo :: waiting) depth room
  | resume {waiting : List (Waiting σ)} {depth : Nat} {next : Except Fault Unit → Method σ} :
      Nests waiting depth none → Nests (.resume next :: waiting) depth none

namespace Nests

variable {waiting : List (Waiting σ)} {depth : Nat} {room : Option Nat}

/-- No tree that waits was started deeper. -/
theorem le (h : Nests waiting depth room) :
    ∀ w ∈ waiting.filterMap Waiting.weight?, invocationLimit - depth ≤ w.1 := by
  induction h with
  | nil => exact nofun
  | tree _ _ ih =>
      intro w mem
      rcases List.mem_cons.mp mem with rfl | mem
      · exact Nat.le_refl _
      · exact ih w mem
  | leave _ _ ih => exact fun w mem => Nat.le_trans (by omega) (ih w mem)
  | trees _ _ ih => exact ih
  | head _ ih => exact ih
  | push _ ih => exact ih
  | letGo _ ih => exact ih
  | resume _ ih => exact ih

/-- A tree that may be started weighs less than all that wait. -/
theorem lt (h : Nests waiting depth room) : ∀ size, (∀ n ∈ room, size < n) →
    ∀ w ∈ waiting.filterMap Waiting.weight?,
      Prod.Lex (· < ·) (· < ·) (invocationLimit - depth, size) w := by
  induction h with
  | nil => exact fun _ _ => nofun
  | tree _ smaller ih =>
      intro size fits w mem
      have less := fits _ rfl
      rcases List.mem_cons.mp mem with rfl | mem
      · exact .right _ less
      · exact ih size (fun n is => Nat.lt_trans less (smaller n is)) w mem
  | leave inner shallow _ =>
      intro size _ w mem
      have deeper := inner.le w mem
      obtain ⟨levels, other⟩ := w
      exact .left _ _ (by dsimp only at deeper; omega)
  | trees _ _ ih => exact ih
  | head _ ih => exact ih
  | push _ ih => exact ih
  | letGo _ ih => exact ih
  | resume _ ih => exact ih

theorem pairwise (h : Nests waiting depth room) :
    (waiting.filterMap Waiting.weight?).Pairwise (Prod.Lex (· < ·) (· < ·)) := by
  induction h with
  | nil => exact .nil
  | tree inner smaller ih => exact .cons (inner.lt _ smaller) ih
  | leave _ _ ih => exact ih
  | trees _ _ ih => exact ih
  | head _ ih => exact ih
  | push _ ih => exact ih
  | letGo _ ih => exact ih
  | resume _ ih => exact ih

end Nests

/-- The trees under way nest, and what is done next may be started among them. -/
def Config.Nests (c : Config σ) : Prop :=
  match c.control with
  | .task (.tree t _) =>
      ∃ room, PeerScript.Nests c.waiting c.machine.session.depth room ∧ ∀ n ∈ room, t.size < n
  | .task (.trees ts _) =>
      ∃ n, PeerScript.Nests c.waiting c.machine.session.depth (some n) ∧ ∀ t ∈ ts, t.size < n
  | .task (.method _) => PeerScript.Nests c.waiting c.machine.session.depth none
  | _ => ∃ room, PeerScript.Nests c.waiting c.machine.session.depth room

namespace Config.Nests

variable {waiting : List (Waiting σ)} {room : Option Nat}

theorem goOn {r : Run σ α} {next : α → Machine σ → Config σ} (steady : Steady r)
    (h : PeerScript.Nests waiting m.session.depth room)
    (rest : ∀ a m', PeerScript.Nests waiting m'.session.depth room → (next a m').Nests) :
    (goOn (r m) waiting next).Nests := by
  rw [← steady.depth m] at h
  cases ran : r m with
  | ok a m' =>
      rw [ran] at h
      exact rest a m' h
  | error stop m' =>
      rw [ran] at h
      exact ⟨room, h⟩

theorem handed {value : α → Option Value} {r : Run σ α} (steady : Steady r)
    (h : PeerScript.Nests waiting m.session.depth room) : (handed value (r m) waiting).Nests :=
  goOn steady h fun _ _ h => ⟨room, h⟩

theorem admitted {next : Unit → Machine σ → Config σ}
    (h : PeerScript.Nests waiting m.session.depth room)
    (rest : m.session.depth < invocationLimit → (next () m.enter).Nests) :
    (PeerScript.goOn (admitted m) waiting next).Nests := by
  unfold PeerScript.admitted
  split
  · exact ⟨room, h⟩
  · exact rest (Nat.lt_of_not_le ‹_›)

variable (host : Host σ)

theorem startTree {t : Tree} (scope : FrameId) (h : PeerScript.Nests waiting m.session.depth room)
    (fits : ∀ n ∈ room, t.size < n) : (startTree host waiting m t scope).Nests := by
  cases t with
  | literal v => exact handed (.literal host v scope) h
  | reference path => exact handed (.reference host path scope) h
  | call head args =>
      have smaller : ∀ t ∈ args, t.size < (Tree.call head args).size :=
        fun t mem => Tree.size_lt_call mem head
      cases head with
      | sequence => exact ⟨_, .tree h fits, smaller⟩
      | _ => exact ⟨_, .head (.tree h fits), smaller⟩

theorem startCall (callee : Value) (name : String) (args : List Value) (scope : FrameId)
    (h : PeerScript.Nests waiting m.session.depth room) :
    (startCall host waiting m callee name args scope).Nests := by
  by_cases function : ∃ ps b f, callee = .closure ps b f
  · obtain ⟨params, body, home, rfl⟩ := function
    unfold PeerScript.startCall
    dsimp only
    split
    · generalize pushed : (if params.isEmpty then m.pushAll args else m) = m₁
      have same : m₁.session.depth = m.session.depth := by
        rw [← pushed]
        split <;> rfl
      rw [← same] at h
      exact admitted h fun shallow => ⟨none, .letGo (.leave h shallow), nofun⟩
    · exact ⟨room, h⟩
  · have other : ∀ ps b f, callee ≠ .closure ps b f := fun ps b f is => function ⟨ps, b, f, is⟩
    have starts : PeerScript.startCall host waiting m callee name args scope =
        PeerScript.handed (fun _ => none) (callValue host none callee name args scope m)
          waiting := by
      cases callee with
      | closure ps b f => exact absurd rfl (other ps b f)
      | _ => rfl
    rw [starts]
    exact handed (.callValue host other name args scope) h

theorem startPath (path : Path) (args : List Value) (scope : FrameId)
    (h : PeerScript.Nests waiting m.session.depth room) :
    (startPath host waiting m path args scope).Nests := by
  unfold PeerScript.startPath
  generalize path.segments.getLast? = last, path.segments.dropLast = front
  match last, front with
  | none, _ => exact ⟨room, h⟩
  | some name, [] =>
      exact goOn (.lookup name scope) h fun _ _ h => ⟨room, h⟩
  | some method, first :: others =>
      refine goOn (.resolve host _ scope) h fun v m' h => ?_
      cases v with
      | object o => exact admitted (.push h) fun shallow => .leave (.push h) shallow
      | _ => exact ⟨room, h⟩

theorem startMethod (act : Method σ) (h : PeerScript.Nests waiting m.session.depth none) :
    (startMethod waiting m act).Nests := by
  cases act with
  | finish result => exact handed (.ofExcept result) h
  | push v next => exact h
  | call callee name args next => exact ⟨none, .resume h⟩
  | run t next => exact ⟨none, .resume h, nofun⟩
  | runIn t scope next => exact ⟨none, .letGo (.resume h), nofun⟩
  | look next => exact h
  | change act next => exact h
  | stuck => exact ⟨none, h⟩

theorem start {task : Task σ} (h : (⟨.task task, waiting, m⟩ : Config σ).Nests) :
    (start host waiting m task).Nests := by
  cases task with
  | tree t scope =>
      obtain ⟨room, nests, fits⟩ := h
      exact startTree host scope nests fits
  | trees ts scope =>
      obtain ⟨n, nests, fits⟩ := h
      cases ts with
      | nil => exact ⟨_, nests⟩
      | cons t rest =>
          obtain ⟨first, others⟩ := List.forall_mem_cons.mp fits
          refine ⟨_, .trees nests others, ?_⟩
          rintro _ ⟨⟩
          exact first
  | call callee name args scope =>
      obtain ⟨room, nests⟩ := h
      exact startCall host callee name args scope nests
  | path path args scope =>
      obtain ⟨room, nests⟩ := h
      exact startPath host path args scope nests
  | method act => exact startMethod act h

theorem applyHead (head : Head) (values : List Value) (scope : FrameId)
    (h : PeerScript.Nests waiting m.session.depth room) :
    (applyHead host waiting m head values scope).Nests := by
  by_cases calls : ∃ path, head = .invoke path
  · obtain ⟨path, rfl⟩ := calls
    exact ⟨room, h⟩
  · have plain : ∀ path, head ≠ .invoke path := fun path is => calls ⟨path, is⟩
    have applies : PeerScript.applyHead host waiting m head values scope =
        PeerScript.handed (fun _ => none) (dispatch host none head values scope m) waiting := by
      cases head with
      | invoke path => exact absurd rfl (plain path)
      | _ => rfl
    rw [applies]
    exact handed (.dispatch host plain values scope) h

theorem take {w : Waiting σ} {result : Except Stop (Option Value)}
    (h : (⟨.back result, w :: waiting, m⟩ : Config σ).Nests) :
    (take host waiting m w result).Nests := by
  obtain ⟨room, nests⟩ := h
  generalize depth : m.session.depth = d at nests
  have passes : ∀ {room}, PeerScript.Nests waiting d room → ∀ result,
      (⟨.back result, waiting, m⟩ : Config σ).Nests := by
    rintro room inner result
    rw [← depth] at inner
    exact ⟨room, inner⟩
  cases nests with
  | tree inner _ => exact passes inner _
  | trees inner fits =>
      cases result with
      | ok v =>
          rw [← depth] at inner
          exact ⟨_, inner, fits⟩
      | error stop => exact passes inner _
  | @head _ _ n head base scope inner =>
      cases result with
      | ok v =>
          rw [← depth] at inner
          exact goOn (.splitOff base) inner fun values m' inner =>
            applyHead host head values scope inner
      | error stop => exact passes inner _
  | push inner =>
      cases result with
      | ok v =>
          rw [← depth] at inner
          cases v <;> exact ⟨_, inner⟩
      | error stop => exact passes inner _
  | @leave _ d' room' inner _ =>
      refine ⟨room', ?_⟩
      have left : m.leave.session.depth = d' := congrArg (· - 1) depth
      rw [← left] at inner
      exact inner
  | letGo inner =>
      rw [← depth] at inner
      exact ⟨_, inner⟩
  | resume inner =>
      rw [← depth] at inner
      cases result with
      | ok v => exact inner
      | error stop =>
          cases stop with
          | failed fault => exact inner
          | _ => exact ⟨none, inner⟩

theorem step {c : Config σ} (h : c.Nests) : (step host c).Nests := by
  obtain ⟨control, waiting, m⟩ := c
  cases control with
  | task task => exact start host h
  | back result =>
      cases waiting with
      | nil => exact h
      | cons w waiting => exact take host h

/-- The trees under way weigh less and less, from the outermost one to the innermost one. -/
theorem descends {c : Config σ} (h : c.Nests) :
    c.underWay.Pairwise (Prod.Lex (· < ·) (· < ·)) := by
  obtain ⟨control, waiting, m⟩ := c
  cases control with
  | back result =>
      obtain ⟨room, nests⟩ := h
      exact nests.pairwise
  | task task =>
      cases task with
      | tree t scope =>
          obtain ⟨room, nests, fits⟩ := h
          exact .cons (nests.lt _ fits) nests.pairwise
      | trees ts scope =>
          obtain ⟨n, nests, -⟩ := h
          exact nests.pairwise
      | method act => exact PeerScript.Nests.pairwise h
      | _ =>
          obtain ⟨room, nests⟩ := h
          exact nests.pairwise

end Config.Nests

end PeerScript
