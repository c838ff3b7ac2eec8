import PeerScript.Proofs.Steps.Nesting

/-!
# Every evaluation ends

`evaluation_ends` puts together what is known of the steps: they come to an end in what the
evaluator says, and on the way there the trees under way weigh less and less.  A method that waits
for ever would hold up the run; where methods return, which every step keeps, none does.

One thing that is neither a result nor a fault may come of a run: it may be broken.
`evaluation_breaks` has a script that breaks it.
-/

set_option autoImplicit false

namespace PeerScript

open Run

variable {σ α : Type} {m : Machine σ}

/-! ## Methods that return -/

/-- The method returns, whatever comes of what it runs and whatever it sees. -/
def Method.Returns : Method σ → Prop
  | .finish _ => True
  | .push _ next | .change _ next => next.Returns
  | .call _ _ _ next | .run _ next | .runIn _ _ next => ∀ result, (next result).Returns
  | .look next => ∀ session common, (next session common).Returns
  | .stuck => False

/-- The methods of all objects return. -/
def Host.Returns (host : Host σ) : Prop := ∀ o name args, (host.method o name args).Returns

/-- What is left of a method returns. -/
def Waiting.Returns : Waiting σ → Prop
  | .resume next => ∀ result, (next result).Returns
  | _ => True

/-- What is left of the methods under way returns, and nothing that waits for ever has been handed
back. -/
structure Config.Returns (c : Config σ) : Prop where
  waiting : ∀ w ∈ c.waiting, w.Returns
  method : ∀ act, c.control = .task (.method act) → act.Returns
  back : c.control ≠ .back (.error .unfinished)

namespace Config.Returns

variable {waiting : List (Waiting σ)}

theorem goOn {r : Run σ α} {next : α → Machine σ → Config σ} (steady : Steady r)
    (h : ∀ w ∈ waiting, w.Returns) (rest : ∀ a m', (next a m').Returns) :
    (goOn (r m) waiting next).Returns := by
  have ends := steady.ends m
  unfold PeerScript.goOn
  split
  · exact rest _ _
  · rename_i stop m' ran
    refine ⟨h, nofun, fun is => ?_⟩
    cases is
    exact ends m' ran

theorem handed {value : α → Option Value} {r : Run σ α} (steady : Steady r)
    (h : ∀ w ∈ waiting, w.Returns) : (handed value (r m) waiting).Returns :=
  goOn steady h fun _ _ => ⟨h, nofun, nofun⟩

theorem admitted {next : Unit → Machine σ → Config σ} (h : ∀ w ∈ waiting, w.Returns)
    (rest : (next () m.enter).Returns) : (PeerScript.goOn (admitted m) waiting next).Returns := by
  unfold PeerScript.admitted
  split
  · exact ⟨h, nofun, nofun⟩
  · exact rest

variable {host : Host σ}

theorem startTree (t : Tree) (scope : FrameId) (h : ∀ w ∈ waiting, w.Returns) :
    (startTree host waiting m t scope).Returns := by
  cases t with
  | literal v => exact handed (.literal host v scope) h
  | reference path => exact handed (.reference host path scope) h
  | call head args =>
      have behind : ∀ w ∈ Waiting.tree (.call head args) m.session.depth :: waiting, w.Returns :=
        List.forall_mem_cons.mpr ⟨trivial, h⟩
      cases head with
      | sequence => exact ⟨behind, nofun, nofun⟩
      | _ => exact ⟨List.forall_mem_cons.mpr ⟨trivial, behind⟩, nofun, nofun⟩

theorem startCall (callee : Value) (name : String) (args : List Value) (scope : FrameId)
    (h : ∀ w ∈ waiting, w.Returns) : (startCall host waiting m callee name args scope).Returns := by
  cases callee with
  | closure params body home =>
      unfold PeerScript.startCall
      dsimp only
      split
      · refine admitted h ⟨List.forall_mem_cons.mpr ⟨trivial, ?_⟩, nofun, nofun⟩
        exact List.forall_mem_cons.mpr ⟨trivial, h⟩
      · exact ⟨h, nofun, nofun⟩
  | _ => exact handed (.callValue host (fun _ _ _ => Value.noConfusion) name args scope) h

theorem startPath (returns : host.Returns) (path : Path) (args : List Value) (scope : FrameId)
    (h : ∀ w ∈ waiting, w.Returns) : (startPath host waiting m path args scope).Returns := by
  unfold PeerScript.startPath
  generalize path.segments.getLast? = last, path.segments.dropLast = front
  match last, front with
  | none, _ => exact ⟨h, nofun, nofun⟩
  | some name, [] => exact goOn (.lookup name scope) h fun _ _ => ⟨h, nofun, nofun⟩
  | some method, first :: others =>
      refine goOn (.resolve host _ scope) h fun v m' => ?_
      cases v with
      | object o =>
          have behind : ∀ w ∈ Waiting.push :: waiting, w.Returns :=
            List.forall_mem_cons.mpr ⟨trivial, h⟩
          refine admitted behind ⟨List.forall_mem_cons.mpr ⟨trivial, behind⟩, ?_, nofun⟩
          rintro _ ⟨⟩
          exact returns o method args
      | _ => exact ⟨h, nofun, nofun⟩

theorem startMethod {act : Method σ} (returns : act.Returns) (h : ∀ w ∈ waiting, w.Returns) :
    (startMethod waiting m act).Returns := by
  have goesOn : ∀ {next : Method σ} {m' : Machine σ}, next.Returns →
      (⟨.task (.method next), waiting, m'⟩ : Config σ).Returns := by
    intro next m' returns
    refine ⟨h, ?_, nofun⟩
    rintro _ ⟨⟩
    exact returns
  cases act with
  | finish result => exact handed (.ofExcept result) h
  | push v next => exact goesOn returns
  | call callee name args next => exact ⟨List.forall_mem_cons.mpr ⟨returns, h⟩, nofun, nofun⟩
  | run t next => exact ⟨List.forall_mem_cons.mpr ⟨returns, h⟩, nofun, nofun⟩
  | runIn t scope next =>
      refine ⟨List.forall_mem_cons.mpr ⟨trivial, ?_⟩, nofun, nofun⟩
      exact List.forall_mem_cons.mpr ⟨returns, h⟩
  | look next => exact goesOn (returns _ _)
  | change act next => exact goesOn returns
  | stuck => exact absurd returns id

theorem applyHead (head : Head) (values : List Value) (scope : FrameId)
    (h : ∀ w ∈ waiting, w.Returns) : (applyHead host waiting m head values scope).Returns := by
  cases head with
  | invoke path => exact ⟨h, nofun, nofun⟩
  | _ => exact handed (.dispatch host (fun _ => Head.noConfusion) values scope) h

theorem take {w : Waiting σ} {result : Except Stop (Option Value)}
    (h : (⟨.back result, w :: waiting, m⟩ : Config σ).Returns) :
    (take host waiting m w result).Returns := by
  obtain ⟨first, others⟩ := List.forall_mem_cons.mp h.waiting
  have passes : ∀ m', (⟨.back result, waiting, m'⟩ : Config σ).Returns :=
    fun _ => ⟨others, nofun, h.back⟩
  cases w with
  | tree t depth => exact passes _
  | leave => exact passes _
  | letGo => exact passes _
  | trees ts scope =>
      cases result with
      | ok v => exact ⟨others, nofun, nofun⟩
      | error stop => exact passes _
  | head head base scope =>
      cases result with
      | ok v => exact goOn (.splitOff base) others fun _ _ => applyHead head _ scope others
      | error stop => exact passes _
  | push =>
      cases result with
      | ok v => cases v <;> exact ⟨others, nofun, nofun⟩
      | error stop => exact passes _
  | resume next =>
      have goesOn : ∀ r, (⟨.task (.method (next r)), waiting, m⟩ : Config σ).Returns := by
        intro r
        refine ⟨others, ?_, nofun⟩
        rintro _ ⟨⟩
        exact first r
      cases result with
      | ok v => exact goesOn _
      | error stop =>
          cases stop with
          | failed fault => exact goesOn _
          | _ => exact passes _

/-- Methods that return are left as such by every step. -/
theorem step (returns : host.Returns) {c : Config σ} (h : c.Returns) : (step host c).Returns := by
  obtain ⟨control, waiting, m⟩ := c
  cases control with
  | task task =>
      cases task with
      | tree t scope => exact startTree t scope h.waiting
      | trees ts scope =>
          cases ts with
          | nil => exact ⟨h.waiting, nofun, nofun⟩
          | cons t rest => exact ⟨List.forall_mem_cons.mpr ⟨trivial, h.waiting⟩, nofun, nofun⟩
      | call callee name args scope => exact startCall callee name args scope h.waiting
      | path path args scope => exact startPath returns path args scope h.waiting
      | method act => exact startMethod (h.method act rfl) h.waiting
  | back result =>
      cases waiting with
      | nil => exact h
      | cons w waiting => exact take h

end Config.Returns

/-! ## The end -/

section Ends

variable (host : Host σ)

/-- A tree that is about to run. -/
def Config.starting (t : Tree) (scope : FrameId) (m : Machine σ) : Config σ :=
  ⟨.task (.tree t scope), [], m⟩

/-- What holds in front of the first step and is kept by each step holds all the time. -/
theorem iterate_keeps {P : Config σ → Prop} (keeps : ∀ c, P c → P (step host c)) {c : Config σ}
    (first : P c) (n : Nat) : P ((step host)^[n] c) := by
  induction n with
  | zero => exact first
  | succ n ih =>
      rw [Function.iterate_succ_apply']
      exact keeps _ ih

/-- The evaluator's result, as it is handed back. -/
def outcome : Except Stop (Option Value) → Machine σ → EStateM.Result Stop (Machine σ) Unit
  | .ok _, m => .ok () m
  | .error stop, m => .error stop m

/-- Every evaluation ends.  Whatever is bound and whatever tree is run, in any machine, finitely
many steps lead to a last one, in which what `evalIn` says is handed back: a result, a fault, or
that the run is broken.  It is broken exactly if it comes to a call whose arguments leave the stack
lower than they found it.  It waits for ever only where a method of an object does.

All the while, of the trees under way the inner one weighs less than the outer one: fewer
invocations may still nest inside of it, or as many, and it is smaller. -/
theorem evaluation_ends (t : Tree) (scope : FrameId) (m : Machine σ) :
    (∃ n result m', (step host)^[n] (.starting t scope m) = ⟨.back result, [], m'⟩ ∧
      evalIn host t scope m = outcome result m' ∧
      (result = .error .broken ↔ Underruns host m.levels (.tree t scope) m) ∧
      (host.Returns → result ≠ .error .unfinished)) ∧
    ∀ n, ((step host)^[n] (.starting t scope m)).underWay.Pairwise
      (Prod.Lex (· < ·) (· < ·)) := by
  constructor
  · have enough : invocationLimit ≤ m.session.depth + m.levels := by
      unfold Machine.levels
      omega
    obtain ⟨-, leads⟩ := (carried host m.levels).tree t scope m enough
    obtain ⟨n, led⟩ := leads []
    have starts : (Config.starting t scope m).Returns := ⟨nofun, nofun, nofun⟩
    have breaks : Breaks ((Task.tree t scope).run host m.levels) m ↔
        Underruns host m.levels (.tree t scope) m := breaks_iff_underruns host
    have same : (Task.tree t scope).run host m.levels m = evalIn host t scope m := rfl
    rw [← breaks]
    unfold Breaks
    rw [same]
    cases ran : evalIn host t scope m with
    | ok _ m' =>
        have handed := led.trans (congrArg (handed (fun _ => none) · []) ran)
        refine ⟨n, .ok none, m', handed, rfl, by simp, nofun⟩
    | error stop m' =>
        have handed := led.trans (congrArg (handed (fun _ => none) · []) ran)
        refine ⟨n, .error stop, m', handed, rfl, by simp, fun returns is => ?_⟩
        have kept := iterate_keeps host (fun c => Config.Returns.step returns (c := c)) starts n
        exact kept.back (congrArg Config.control handed |>.trans (congrArg Control.back is))
  · intro n
    have starts : (Config.starting t scope m).Nests := ⟨none, .nil, nofun⟩
    exact (iterate_keeps host (fun c => Config.Nests.step host (c := c)) starts n).descends

end Ends

/-! ## A run that breaks -/

/-- Steps hand back one result only. -/
theorem handed_back_once {host : Host σ} {c : Config σ} {n k : Nat}
    {result result' : Except Stop (Option Value)} {m m' : Machine σ}
    (h : (step host)^[n] c = ⟨.back result, [], m⟩)
    (h' : (step host)^[k] c = ⟨.back result', [], m'⟩) :
    result = result' := by
  have stays : ∀ j, (step host)^[j] ⟨.back result, [], m⟩ = ⟨.back result, [], m⟩ :=
    fun j => Function.iterate_fixed rfl j
  have stays' : ∀ j, (step host)^[j] ⟨.back result', [], m'⟩ = ⟨.back result', [], m'⟩ :=
    fun j => Function.iterate_fixed rfl j
  have same : (⟨.back result, [], m⟩ : Config σ) = ⟨.back result', [], m'⟩ := by
    rw [← stays k, ← h, ← Function.iterate_add_apply, Nat.add_comm, Function.iterate_add_apply, h',
      stays']
  cases same
  rfl

/-- Whether it has been handed back that the run is broken. -/
def Config.isBroken (c : Config σ) : Bool :=
  match c.control, c.waiting with
  | .back (.error .broken), [] => true
  | _, _ => false

theorem Config.eq_of_isBroken {c : Config σ} (h : c.isBroken = true) :
    c = ⟨.back (.error .broken), [], c.machine⟩ := by
  obtain ⟨control, waiting, m⟩ := c
  unfold isBroken at h
  split at h
  · rename_i is empty
    cases is
    cases empty
    rfl
  · cases h

/-- The number 1, and a list of what `drop` gives back. -/
def dropInList : Tree :=
  .call .sequence [.literal (.int 1), .call .list [.call (.invoke ⟨["drop"]⟩) []]]

/-- A machine on whose stack there is nothing, with the builtins in its only frame, and no
objects. -/
def builtinMachine : Machine Unit :=
  let (common, frame) := (Common.new ()).alloc none
  ⟨.new .empty frame, { common with store := Builtin.install common.store frame }⟩

/-- No object has a method. -/
def doneHost : Host Unit := ⟨fun _ o => o.typeName, fun _ _ _ => none, fun _ _ _ => .done⟩

/-- Not every evaluation comes to a result or a fault: `drop` takes away what was on the stack in
front of the list, and the list looks for its items above that. -/
theorem evaluation_breaks :
    ¬ ∀ (host : Host Unit) (t : Tree) (scope : FrameId) (m : Machine Unit),
      host.Returns → m.session.depth ≤ invocationLimit →
      ∃ n result m', (step host)^[n] (.starting t scope m) = ⟨.back result, [], m'⟩ ∧
        ∀ stop, result = .error stop → ∃ fault, stop = .failed fault := by
  intro ends
  obtain ⟨n, result, m', handed, faults⟩ :=
    ends doneHost dropInList 0 builtinMachine (fun _ _ _ => trivial) (Nat.zero_le _)
  have broken : ((step doneHost)^[19] (.starting dropInList 0 builtinMachine)).isBroken = true := by
    decide +kernel
  obtain ⟨fault, is⟩ := faults .broken (handed_back_once handed (Config.eq_of_isBroken broken))
  cases is

end PeerScript
