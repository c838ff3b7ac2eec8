import Mathlib
import PeerScript.Proofs.Steps.Ending
import PeerScript.Proofs.Stops

/-!
# Invocations are counted

The depth of a machine is a number that goes up when an invocation starts and down when it ends.
Here it is compared with what it counts: the ends of invocations that are waited for.  `Balanced` is
kept by every step, so that nothing is lost where a run fails, and an invocation is refused exactly
if as many as allowed are under way.
-/

set_option autoImplicit false

namespace PeerScript

open Run

variable {σ α : Type} {m m' : Machine σ} {host : Host σ}

/-! ## What is counted -/

/-- The end of an invocation is waited for. -/
def Waiting.isLeave : Waiting σ → Bool
  | .leave => true
  | _ => false

/-- The number of invocations that have been started and have not ended. -/
def Config.invocations (c : Config σ) : Nat := c.waiting.countP Waiting.isLeave

/-- The depth counts the invocations that were under way at first and those that were started since,
and there are not more of them than allowed. -/
structure Balanced (first : Nat) (waiting : List (Waiting σ)) (m : Machine σ) : Prop where
  depth : m.session.depth = first + waiting.countP Waiting.isLeave
  within : m.session.depth ≤ invocationLimit

/-- The depth of a configuration counts the invocations under way. -/
def Config.IsBalanced (first : Nat) (c : Config σ) : Prop := Balanced first c.waiting c.machine

namespace Balanced

variable {first : Nat} {waiting : List (Waiting σ)} {w : Waiting σ}

/-- Something else is waited for. -/
theorem behind (h : Balanced first waiting m) (other : w.isLeave = false) :
    Balanced first (w :: waiting) m :=
  ⟨by rw [List.countP_cons_of_neg (by simp [other])]; exact h.depth, h.within⟩

/-- Nothing is waited for any more that counts. -/
theorem next (h : Balanced first (w :: waiting) m) (other : w.isLeave = false) :
    Balanced first waiting m := by
  refine ⟨?_, h.within⟩
  have depth := h.depth
  rwa [List.countP_cons_of_neg (by simp [other])] at depth

theorem enter (h : Balanced first waiting m) (shallow : m.session.depth < invocationLimit) :
    Balanced first (.leave :: waiting) m.enter := by
  refine ⟨?_, shallow⟩
  have depth := h.depth
  rw [List.countP_cons_of_pos (by rfl), ← Nat.add_assoc, ← depth]
  rfl

theorem leave (h : Balanced first (.leave :: waiting) m) : Balanced first waiting m.leave := by
  have depth := h.depth
  have within := h.within
  rw [List.countP_cons_of_pos (by rfl), ← Nat.add_assoc] at depth
  constructor
  · change m.session.depth - 1 = _
    omega
  · change m.session.depth - 1 ≤ _
    omega

/-- The body of a function runs in a frame that is kept until the end. -/
theorem inFrame (h : Balanced first waiting m) (frame : FrameId) :
    Balanced first (.letGo :: waiting) (m.hold frame) :=
  ⟨(h.behind rfl : Balanced first (.letGo :: waiting) m).depth, h.within⟩

/-- What does not change the depth leaves the count as it is. -/
theorem of_depth_eq (h : Balanced first waiting m) (same : m'.session.depth = m.session.depth) :
    Balanced first waiting m' := by
  obtain ⟨depth, within⟩ := h
  rw [← same] at depth within
  exact ⟨depth, within⟩

/-! ## Steps -/

theorem goOn {r : Run σ α} {next : α → Machine σ → Config σ} (steady : Steady r)
    (h : Balanced first waiting m)
    (rest : ∀ a m', Balanced first waiting m' → (next a m').IsBalanced first) :
    (goOn (r m) waiting next).IsBalanced first := by
  have same := steady.depth m
  cases ran : r m with
  | ok a m' =>
      rw [ran] at same
      exact rest a m' (h.of_depth_eq same)
  | error stop m' =>
      rw [ran] at same
      exact h.of_depth_eq same

theorem handed {value : α → Option Value} {r : Run σ α} (steady : Steady r)
    (h : Balanced first waiting m) : (handed value (r m) waiting).IsBalanced first :=
  h.goOn steady fun _ _ h => h

theorem admitted {next : Unit → Machine σ → Config σ} (h : Balanced first waiting m)
    (rest : m.session.depth < invocationLimit → (next () m.enter).IsBalanced first) :
    (PeerScript.goOn (admitted m) waiting next).IsBalanced first := by
  unfold PeerScript.admitted
  split
  · exact h
  · exact rest (Nat.lt_of_not_le ‹_›)

variable (host)

theorem startTree (t : Tree) (scope : FrameId) (h : Balanced first waiting m) :
    (startTree host waiting m t scope).IsBalanced first := by
  cases t with
  | literal v => exact h.handed (.literal host v scope)
  | reference path => exact h.handed (.reference host path scope)
  | call head args =>
      have inner : Balanced first (.tree (.call head args) m.session.depth :: waiting) m :=
        h.behind rfl
      cases head with
      | sequence => exact inner
      | _ => exact inner.behind rfl

theorem startCall (callee : Value) (name : String) (args : List Value) (scope : FrameId)
    (h : Balanced first waiting m) :
    (startCall host waiting m callee name args scope).IsBalanced first := by
  cases callee with
  | closure params body home =>
      unfold PeerScript.startCall
      dsimp only
      split
      · have pushed : Balanced first waiting (if params.isEmpty then m.pushAll args else m) :=
          h.of_depth_eq (by split <;> rfl)
        have framed : ∀ parent bindings, Balanced first waiting
            ((if params.isEmpty then m.pushAll args else m).framed parent bindings) :=
          fun _ _ => pushed.of_depth_eq rfl
        exact admitted (framed _ _) fun shallow => ((framed _ _).enter shallow).inFrame _
      · exact h
  | _ => exact h.handed (.callValue host (fun _ _ _ => Value.noConfusion) name args scope)

theorem startPath (path : Path) (args : List Value) (scope : FrameId)
    (h : Balanced first waiting m) :
    (startPath host waiting m path args scope).IsBalanced first := by
  unfold PeerScript.startPath
  generalize path.segments.getLast? = last, path.segments.dropLast = front
  match last, front with
  | none, _ => exact h
  | some name, [] => exact h.goOn (.lookup name scope) fun _ _ h => h
  | some method, receiver :: others =>
      refine h.goOn (.resolve host _ scope) fun v m' h => ?_
      cases v with
      | object o =>
          have pushes : Balanced first (.push :: waiting) m' := h.behind rfl
          exact pushes.admitted fun shallow => pushes.enter shallow
      | _ => exact h

theorem startMethod (act : Method σ) (h : Balanced first waiting m) :
    (startMethod waiting m act).IsBalanced first := by
  cases act with
  | finish result => exact h.handed (.ofExcept result)
  | push v next => exact h.of_depth_eq rfl
  | call callee name args next => exact h.behind rfl
  | run t next => exact h.behind rfl
  | runIn t scope next =>
      have resumes : Balanced first (.resume next :: waiting) m := h.behind rfl
      exact resumes.inFrame scope
  | look next => exact h
  | change act next => exact h.of_depth_eq rfl
  | stuck => exact h

theorem start (task : Task σ) (h : Balanced first waiting m) :
    (start host waiting m task).IsBalanced first := by
  cases task with
  | tree t scope => exact h.startTree host t scope
  | trees ts scope =>
      cases ts with
      | nil => exact h
      | cons t rest => exact h.behind rfl
  | call callee name args scope => exact h.startCall host callee name args scope
  | path path args scope => exact h.startPath host path args scope
  | method act => exact h.startMethod act

theorem applyHead (head : Head) (values : List Value) (scope : FrameId)
    (h : Balanced first waiting m) :
    (applyHead host waiting m head values scope).IsBalanced first := by
  cases head with
  | invoke path => exact h
  | _ => exact h.handed (.dispatch host (fun _ => Head.noConfusion) values scope)

theorem take (w : Waiting σ) (result : Except Stop (Option Value))
    (h : Balanced first (w :: waiting) m) :
    (take host waiting m w result).IsBalanced first := by
  cases w with
  | leave => exact h.leave
  | tree t depth => exact h.next rfl
  | letGo => exact (h.next rfl).of_depth_eq rfl
  | trees ts scope => cases result <;> exact h.next rfl
  | head head base scope =>
      have h := h.next rfl
      cases result with
      | ok v => exact h.goOn (.splitOff base) fun values _ h => h.applyHead host head values scope
      | error stop => exact h
  | push =>
      have h := h.next rfl
      cases result with
      | ok v => cases v <;> exact h.of_depth_eq rfl
      | error stop => exact h
  | resume next =>
      have h := h.next rfl
      cases result with
      | ok v => exact h
      | error stop => cases stop <;> exact h

/-- Every step keeps the count. -/
theorem step {c : Config σ} (h : c.IsBalanced first) : (step host c).IsBalanced first := by
  obtain ⟨control, waiting, m⟩ := c
  cases control with
  | task task => exact start host task h
  | back result =>
      cases waiting with
      | nil => exact h
      | cons w waiting => exact take host w result h

end Balanced

/-! ## What counts -/

variable (host) in
/-- What the invocation has to do that is about to start: the body of a function that is called with
as many arguments as it takes, or the method of an object. -/
def Config.opens? (c : Config σ) : Option (Task σ) :=
  match c.control with
  | .task (.call (.closure params body _) _ args _) =>
      if params.isEmpty ∨ params.length = args.length then
        some (.tree body c.machine.common.store.frames.size)
      else none
  | .task (.path path args scope) =>
      match path.segments.getLast?, path.segments.dropLast with
      | some method, first :: others =>
          match resolve host ⟨first :: others⟩ scope c.machine with
          | .ok (.object o) _ => some (.method (host.method o method args))
          | _ => none
      | _, _ => none
  | _ => none

/-- What is handed back when an invocation is refused. -/
def refusal : Except Stop (Option Value) := .error (.failed (.recursionLimit invocationLimit))

/-- An invocation is refused when the limit is reached, and starts otherwise. -/
structure Config.Admits (c next : Config σ) (inner : Task σ) : Prop where
  refused : invocationLimit ≤ c.machine.session.depth → next.control = .back refusal
  started : c.machine.session.depth < invocationLimit → next.control = .task inner

theorem admits_of_admitted {c : Config σ} {inner : Task σ} {waiting : List (Waiting σ)}
    {next : Unit → Machine σ → Config σ} (same : m.session.depth = c.machine.session.depth)
    (starts : (next () m.enter).control = .task inner) :
    c.Admits (goOn (admitted m) waiting next) inner := by
  unfold admitted
  rw [same]
  constructor
  · intro deep
    rw [if_pos deep]
    rfl
  · intro shallow
    rw [if_neg (Nat.not_le_of_lt shallow)]
    exact starts

theorem admits_step {c : Config σ} {inner : Task σ} (opens : c.opens? host = some inner) :
    c.Admits (step host c) inner := by
  obtain ⟨control, waiting, m⟩ := c
  unfold Config.opens? at opens
  split at opens
  · rename_i params body home name args scope is
    dsimp only at is
    subst is
    split at opens
    · rename_i fits
      cases opens
      change Config.Admits _
        (startCall host waiting m (.closure params body home) name args scope) _
      unfold startCall
      dsimp only
      rw [if_pos fits]
      refine admits_of_admitted ?_ rfl
      split <;> rfl
    · exact nomatch opens
  · rename_i path args scope is
    dsimp only at is
    subst is
    change Config.Admits _ (startPath host waiting m path args scope) _
    unfold startPath
    revert opens
    generalize path.segments.getLast? = last, path.segments.dropLast = front
    intro opens
    match last, front with
    | none, _ => exact nomatch opens
    | some name, [] => exact nomatch opens
    | some method, first :: others =>
        have depth := (Steady.resolve host ⟨first :: others⟩ scope).depth m
        dsimp only at opens ⊢
        cases found : resolve host ⟨first :: others⟩ scope m with
        | error stop m' =>
            rw [found] at opens
            exact nomatch opens
        | ok v m' =>
            rw [found] at opens depth
            cases v with
            | object o =>
                cases opens
                exact admits_of_admitted depth rfl
            | _ => exact nomatch opens
  · exact nomatch opens

/-- A builtin does not count as an invocation. -/
theorem step_native {c : Config σ} {b : Builtin} {name : String} {args : List Value}
    {scope : FrameId} (calls : c.control = .task (.call (.native b) name args scope)) :
    (step host c).machine.session.depth = c.machine.session.depth ∧
      (step host c).control ≠ .back refusal := by
  obtain ⟨control, waiting, m⟩ := c
  cases calls
  change (handed (fun _ => none) (callValue host none (.native b) name args scope m)
    waiting).machine.session.depth = m.session.depth ∧
    (handed (fun _ => none) (callValue host none (.native b) name args scope m) waiting).control ≠ _
  have other : ∀ ps body f, Value.native b ≠ .closure ps body f := fun _ _ _ => Value.noConfusion
  have depth := (Steady.callValue host other name args scope).depth m
  cases ran : callValue host none (.native b) name args scope m with
  | ok a m' =>
      rw [ran] at depth
      exact ⟨depth, by rintro ⟨⟩⟩
  | error stop m' =>
      rw [ran] at depth
      refine ⟨depth, fun refused => ?_⟩
      have fault : stop = .failed (.recursionLimit invocationLimit) := by
        cases refused
        rfl
      subst fault
      cases first : b.run host args m with
      | ok v m₁ =>
          rw [callValue, bind_of_ok first] at ran
          cases v <;> cases ran
      | error stop m₁ =>
          rw [callValue, bind_of_error first] at ran
          cases ran
          cases stops_builtin host b args _ _ _ first

/-! ## A whole run -/

/-- The steps lead to what the evaluator says. -/
theorem leads_evalIn (host : Host σ) (t : Tree) (scope : FrameId) (m : Machine σ) :
    ∃ n result m', (step host)^[n] (.starting t scope m) = ⟨.back result, [], m'⟩ ∧
      evalIn host t scope m = outcome result m' ∧ m'.session.depth = m.session.depth := by
  have enough : invocationLimit ≤ m.session.depth + m.levels := by
    unfold Machine.levels
    omega
  obtain ⟨depth, leads⟩ := (carried host m.levels).tree t scope m enough
  obtain ⟨n, led⟩ := leads []
  cases ran : evalIn host t scope m with
  | ok _ m' =>
      have same := (congrArg (fun x => (behind x).session.depth) ran).symm.trans depth
      exact ⟨n, .ok none, m', led.trans (congrArg (handed (fun _ => none) · []) ran), rfl, same⟩
  | error stop m' =>
      have same := (congrArg (fun x => (behind x).session.depth) ran).symm.trans depth
      exact ⟨n, .error stop, m', led.trans (congrArg (handed (fun _ => none) · []) ran), rfl, same⟩

/-- A script leaves room for as many invocations as it has found, and for all of them when it
fails. -/
theorem levels_le_runScript (host : Host σ) (t : Tree) (m : Machine σ) :
    m.levels ≤ (behind (runScript host t m)).levels := by
  obtain ⟨-, result, m', -, ends, depth⟩ := leads_evalIn host t m.session.ambient m
  have same : eval host t m = outcome result m' := ends
  unfold runScript Machine.levels
  rw [same]
  cases result with
  | ok v => exact Nat.le_of_eq (congrArg (invocationLimit - ·) depth.symm)
  | error stop =>
      cases stop with
      | failed fault => exact Nat.sub_le _ _
      | _ => exact Nat.le_of_eq (congrArg (invocationLimit - ·) depth.symm)

/-- Invocations are counted exactly.  A run ends, in whatever way, with as many invocations under
way as it has started with.  All the while the depth is the number of these and of those that have
been started and have not ended, and is never above the limit; an invocation of a function or a
method is refused exactly if the limit is reached, and otherwise its body or method is what is done
next; builtins do not count.  So no script, failed or not, leaves less room for invocations than it
has found. -/
theorem invocations_balanced (host : Host σ) (t : Tree) (scope : FrameId) (m : Machine σ)
    (within : m.session.depth ≤ invocationLimit) :
    (∃ n result m', (step host)^[n] (.starting t scope m) = ⟨.back result, [], m'⟩ ∧
      evalIn host t scope m = outcome result m' ∧ m'.session.depth = m.session.depth) ∧
    (∀ n c, (step host)^[n] (.starting t scope m) = c →
      c.machine.session.depth = m.session.depth + c.invocations ∧
      c.machine.session.depth ≤ invocationLimit ∧
      (∀ inner, c.opens? host = some inner →
        ((step host c).control = .back refusal ↔
          m.session.depth + c.invocations = invocationLimit) ∧
        ((step host c).control = .task inner ↔
          m.session.depth + c.invocations < invocationLimit)) ∧
      (∀ b name args caller, c.control = .task (.call (.native b) name args caller) →
        (step host c).machine.session.depth = c.machine.session.depth ∧
          (step host c).control ≠ .back refusal)) ∧
    m.levels ≤ (behind (runScript host t m)).levels := by
  refine ⟨leads_evalIn host t scope m, fun n c reached => ?_, levels_le_runScript host t m⟩
  have starts : (Config.starting t scope m).IsBalanced m.session.depth := ⟨rfl, within⟩
  have balanced : c.IsBalanced m.session.depth :=
    reached ▸ iterate_keeps host (fun c => Balanced.step host (c := c)) starts n
  have depth : c.machine.session.depth = m.session.depth + c.invocations := balanced.depth
  refine ⟨depth, balanced.within, fun inner opens => ?_, fun b name args caller => step_native⟩
  have admits := admits_step opens
  have limit := balanced.within
  rw [← depth]
  rcases Nat.lt_or_eq_of_le limit with shallow | deep
  · have started := admits.started shallow
    rw [started]
    exact ⟨⟨nofun, fun full => absurd full (Nat.ne_of_lt shallow)⟩,
      ⟨fun _ => shallow, fun _ => rfl⟩⟩
  · have refused := admits.refused (Nat.le_of_eq deep.symm)
    rw [refused]
    exact ⟨⟨fun _ => deep, fun _ => rfl⟩,
      ⟨nofun, fun shallow => absurd deep (Nat.ne_of_lt shallow)⟩⟩

/-- A call of `loop`. -/
def callLoop : Tree := .invoke ⟨["loop"]⟩ []

/-- A machine in whose only frame a function is bound that calls itself, with as many invocations
under way as allowed but one. -/
def nearlyFull : Machine Unit :=
  let (common, frame) := (Common.new ()).alloc none
  ⟨{ Session.new .empty frame with depth := invocationLimit - 1 },
    { common with store := common.store.set frame "loop" (.closure [] callLoop none) }⟩

theorem invocations_balanced_nearlyFull :
    nearlyFull.session.depth ≤ invocationLimit ∧
      ((step doneHost)^[5] (.starting callLoop 0 nearlyFull)).control = .task (.tree callLoop 1) ∧
      ((step doneHost)^[10] (.starting callLoop 0 nearlyFull)).control = .back refusal ∧
      nearlyFull.levels ≤ (behind (runScript doneHost callLoop nearlyFull)).levels := by
  have within : nearlyFull.session.depth ≤ invocationLimit := Nat.sub_le _ _
  obtain ⟨-, along, room⟩ := invocations_balanced doneHost callLoop 0 nearlyFull within
  have first : ((step doneHost)^[4] (.starting callLoop 0 nearlyFull)).opens? doneHost =
      some (.tree callLoop 1) := by cbv
  have none : ((step doneHost)^[4] (.starting callLoop 0 nearlyFull)).invocations = 0 := by cbv
  have second : ((step doneHost)^[9] (.starting callLoop 0 nearlyFull)).opens? doneHost =
      some (.tree callLoop 2) := by cbv
  have one : ((step doneHost)^[9] (.starting callLoop 0 nearlyFull)).invocations = 1 := by cbv
  have started := ((along 4 _ rfl).2.2.1 _ first).2.mpr (by rw [none]; decide)
  have refused := ((along 9 _ rfl).2.2.1 _ second).1.mpr (by rw [one]; decide)
  have next : ∀ n, step doneHost ((step doneHost)^[n] (.starting callLoop 0 nearlyFull)) =
      (step doneHost)^[n + 1] (.starting callLoop 0 nearlyFull) :=
    fun n => (Function.iterate_succ_apply' _ n _).symm
  rw [next] at started refused
  exact ⟨within, started, refused, room⟩

end PeerScript
