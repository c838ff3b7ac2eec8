import PeerScript.Proofs.Reception
import PeerScript.Proofs.Steps.Ending

/-!
# What every run leaves alone

A script reaches the state of the objects only through their methods, and a method only through the
changes that it makes.  So what every one of these changes keeps, every run keeps, whichever way it
ends: `Keeping` is kept by each step, and `keeps_answer` says it of the answer to a message.
-/

set_option autoImplicit false

namespace PeerScript

open Run

variable {σ α : Type} {P : σ → Prop} {m : Machine σ}

/-! ## Methods -/

/-- Every change of the method keeps what holds of the objects, whatever comes of what it runs. -/
def Method.Keeps (P : σ → Prop) : Method σ → Machine σ → Prop
  | .finish _, _ | .stuck, _ => True
  | .push v next, m => next.Keeps P (m.push v)
  | .call _ _ _ next, _ | .run _ next, _ | .runIn _ _ next, _ =>
      ∀ result (m' : Machine σ), P m'.common.world → (next result).Keeps P m'
  | .look next, m => (next m.session m.whole).Keeps P m
  | .change act next, m => P (act m.whole).world ∧ next.Keeps P (m.changed (act m.whole))

/-- The methods of all objects keep it. -/
def Host.Keeps (P : σ → Prop) (host : Host σ) : Prop :=
  ∀ o name args (m : Machine σ), P m.common.world → (host.method o name args).Keeps P m

/-- What is left of a method keeps it. -/
def Waiting.Keeps (P : σ → Prop) : Waiting σ → Prop
  | .resume next => ∀ result (m : Machine σ), P m.common.world → (next result).Keeps P m
  | _ => True

/-! ## Steps -/

/-- What is kept holds now, and what is left of the methods under way keeps it. -/
structure Config.Keeping (P : σ → Prop) (c : Config σ) : Prop where
  world : P c.machine.common.world
  waiting : ∀ w ∈ c.waiting, w.Keeps P
  method : ∀ act, c.control = .task (.method act) → act.Keeps P c.machine

namespace Config.Keeping

variable {waiting : List (Waiting σ)} {host : Host σ} (holds : P m.common.world)
  (h : ∀ w ∈ waiting, w.Keeps P)

include holds h

theorem goOn {r : Run σ α} {next : α → Machine σ → Config σ} (steady : Steady r)
    (rest : ∀ a (m' : Machine σ), P m'.common.world → (next a m').Keeping P) :
    (goOn (r m) waiting next).Keeping P := by
  have same := steady.world m
  unfold PeerScript.goOn
  split
  · rename_i a m' ran
    rw [ran] at same
    exact rest a m' (same ▸ holds)
  · rename_i stop m' ran
    rw [ran] at same
    exact ⟨same ▸ holds, h, nofun⟩

theorem handed {value : α → Option Value} {r : Run σ α} (steady : Steady r) :
    (handed value (r m) waiting).Keeping P :=
  goOn holds h steady fun _ _ holds' => ⟨holds', h, nofun⟩

theorem admitted {next : Unit → Machine σ → Config σ} (rest : (next () m.enter).Keeping P) :
    (PeerScript.goOn (admitted m) waiting next).Keeping P := by
  unfold PeerScript.admitted
  split
  · exact ⟨holds, h, nofun⟩
  · exact rest

theorem startTree (t : Tree) (scope : FrameId) : (startTree host waiting m t scope).Keeping P := by
  cases t with
  | literal v => exact handed holds h (.literal host v scope)
  | reference path => exact handed holds h (.reference host path scope)
  | call head args =>
      have behind : ∀ w ∈ Waiting.tree (.call head args) m.session.depth :: waiting, w.Keeps P :=
        List.forall_mem_cons.mpr ⟨trivial, h⟩
      cases head with
      | sequence => exact ⟨holds, behind, nofun⟩
      | _ => exact ⟨holds, List.forall_mem_cons.mpr ⟨trivial, behind⟩, nofun⟩

theorem startCall (callee : Value) (name : String) (args : List Value) (scope : FrameId) :
    (startCall host waiting m callee name args scope).Keeping P := by
  cases callee with
  | closure params body home =>
      unfold PeerScript.startCall
      dsimp only
      split
      · have framed : P ((if params.isEmpty then m.pushAll args else m).framed (m.around home scope)
            (params.zip args)).common.world := by
          split <;> exact holds
        refine admitted framed h ⟨framed, ?_, nofun⟩
        exact List.forall_mem_cons.mpr ⟨trivial, List.forall_mem_cons.mpr ⟨trivial, h⟩⟩
      · exact ⟨holds, h, nofun⟩
  | _ => exact handed holds h (.callValue host (fun _ _ _ => Value.noConfusion) name args scope)

theorem startPath (keeps : host.Keeps P) (path : Path) (args : List Value) (scope : FrameId) :
    (startPath host waiting m path args scope).Keeping P := by
  unfold PeerScript.startPath
  generalize path.segments.getLast? = last, path.segments.dropLast = front
  match last, front with
  | none, _ => exact ⟨holds, h, nofun⟩
  | some name, [] => exact goOn holds h (.lookup name scope) fun _ _ holds' => ⟨holds', h, nofun⟩
  | some method, first :: others =>
      refine goOn holds h (.resolve host _ scope) fun v m' holds' => ?_
      cases v with
      | object o =>
          have behind : ∀ w ∈ Waiting.push :: waiting, w.Keeps P :=
            List.forall_mem_cons.mpr ⟨trivial, h⟩
          refine admitted holds' behind ⟨holds', List.forall_mem_cons.mpr ⟨trivial, behind⟩, ?_⟩
          rintro _ ⟨⟩
          exact keeps o method args _ holds'
      | _ => exact ⟨holds', h, nofun⟩

theorem startMethod {act : Method σ} (keeps : act.Keeps P m) :
    (startMethod waiting m act).Keeping P := by
  have goesOn : ∀ {next : Method σ} {m' : Machine σ}, P m'.common.world → next.Keeps P m' →
      (⟨.task (.method next), waiting, m'⟩ : Config σ).Keeping P := by
    intro next m' holds' keeps
    refine ⟨holds', h, ?_⟩
    rintro _ ⟨⟩
    exact keeps
  cases act with
  | finish result => exact handed holds h (.ofExcept result)
  | push v next => exact goesOn holds keeps
  | call callee name args next => exact ⟨holds, List.forall_mem_cons.mpr ⟨keeps, h⟩, nofun⟩
  | run t next => exact ⟨holds, List.forall_mem_cons.mpr ⟨keeps, h⟩, nofun⟩
  | runIn t scope next =>
      refine ⟨holds, List.forall_mem_cons.mpr ⟨trivial, ?_⟩, nofun⟩
      exact List.forall_mem_cons.mpr ⟨keeps, h⟩
  | look next => exact goesOn holds keeps
  | change act next => exact goesOn keeps.1 keeps.2
  | stuck => exact ⟨holds, h, nofun⟩

theorem applyHead (head : Head) (values : List Value) (scope : FrameId) :
    (applyHead host waiting m head values scope).Keeping P := by
  cases head with
  | invoke path => exact ⟨holds, h, nofun⟩
  | _ => exact handed holds h (.dispatch host (fun _ => Head.noConfusion) values scope)

omit holds h in
theorem take {w : Waiting σ} {result : Except Stop (Option Value)}
    (h : (⟨.back result, w :: waiting, m⟩ : Config σ).Keeping P) :
    (take host waiting m w result).Keeping P := by
  have holds : P m.common.world := h.world
  obtain ⟨first, others⟩ := List.forall_mem_cons.mp h.waiting
  cases w with
  | tree t depth => exact ⟨holds, others, nofun⟩
  | leave => exact ⟨holds, others, nofun⟩
  | letGo => exact ⟨holds, others, nofun⟩
  | trees ts scope => cases result <;> exact ⟨holds, others, nofun⟩
  | head head base scope =>
      cases result with
      | ok v =>
        exact goOn holds others (.splitOff base) fun _ _ holds' =>
          applyHead holds' others head _ scope
      | error stop => exact ⟨holds, others, nofun⟩
  | push =>
      cases result with
      | ok v => cases v <;> exact ⟨holds, others, nofun⟩
      | error stop => exact ⟨holds, others, nofun⟩
  | resume next =>
      have goesOn : ∀ r, (⟨.task (.method (next r)), waiting, m⟩ : Config σ).Keeping P := by
        intro r
        refine ⟨holds, others, ?_⟩
        rintro _ ⟨⟩
        exact first r m holds
      cases result with
      | ok v => exact goesOn _
      | error stop =>
          cases stop with
          | failed fault => exact goesOn _
          | _ => exact ⟨holds, others, nofun⟩

omit holds h in
/-- Every step keeps it. -/
theorem step (keeps : host.Keeps P) {c : Config σ} (h : c.Keeping P) : (step host c).Keeping P := by
  obtain ⟨control, waiting, m⟩ := c
  have holds : P m.common.world := h.world
  cases control with
  | task task =>
      cases task with
      | tree t scope => exact startTree holds h.waiting t scope
      | trees ts scope =>
          cases ts with
          | nil => exact ⟨holds, h.waiting, nofun⟩
          | cons t rest => exact ⟨holds, List.forall_mem_cons.mpr ⟨trivial, h.waiting⟩, nofun⟩
      | call callee name args scope => exact startCall holds h.waiting callee name args scope
      | path path args scope => exact startPath holds h.waiting keeps path args scope
      | method act => exact startMethod holds h.waiting (h.method act rfl)
  | back result =>
      cases waiting with
      | nil => exact h
      | cons w waiting => exact take h

end Config.Keeping

/-! ## Runs -/

/-- What holds of the objects in front of the run holds behind it, whichever way it ends. -/
def Run.Keeps (P : σ → Prop) (r : Run σ α) : Prop :=
  ∀ m, P m.common.world → P (behind (r m)).common.world

namespace Run.Keeps

variable {β : Type} {r : Run σ α} {f : α → Run σ β}

theorem of_steady (steady : Steady r) : Run.Keeps P r :=
  fun m holds => (steady.world m).symm ▸ holds

theorem bind (h : Run.Keeps P r) (next : ∀ a, Run.Keeps P (f a)) : Run.Keeps P (r >>= f) := by
  intro m holds
  have first := h m holds
  cases ran : r m with
  | ok a m' =>
      rw [ran] at first
      rw [bind_of_ok ran]
      exact next a m' first
  | error stop m' =>
      rw [ran] at first
      rw [bind_of_error ran]
      exact first

theorem caught {r : Run σ Unit} (h : Run.Keeps P r) : Run.Keeps P (Run.caught r) := by
  intro m holds
  have inside := h m holds
  unfold Run.caught
  cases ran : r m with
  | ok _ m' =>
      rw [ran] at inside
      exact inside
  | error stop m' =>
      rw [ran] at inside
      cases stop <;> exact inside

end Run.Keeps

theorem steady_parsed (language : Script.Language) (text : String) :
    Steady (parsed language text : Run σ (Except Fault Tree)) := by
  have shape : ∀ m : Machine σ, (∃ fault, parsed language text m = .ok (.error fault) m) ∨
      ∃ t serial, parsed language text m = .ok (.ok t) (m.numbered serial) := by
    intro m
    rw [parsed_eq]
    split
    · exact .inl ⟨_, rfl⟩
    · exact .inr ⟨_, _, rfl⟩
  constructor
  · intro m
    rcases shape m with ⟨_, ran⟩ | ⟨_, _, ran⟩ <;> rw [ran] <;> rfl
  · intro m
    rcases shape m with ⟨_, ran⟩ | ⟨_, _, ran⟩ <;> rw [ran] <;> rfl
  · intro m m' stuck
    rcases shape m with ⟨_, ran⟩ | ⟨_, _, ran⟩ <;> rw [ran] at stuck <;> exact nomatch stuck

/-- What an answer does last. -/
theorem steady_written (host : Host σ) (policy : StackPolicy) : Steady (do
    let m ← get
    if policy = .consumeOnReply then modify (·.withStack [])
    return (host.encoder m).script m.session.values : Run σ String) := by
  refine .bind .get fun m => ?_
  split
  · exact .bind (.modify (fun _ => rfl) fun _ => rfl) fun _ => .pure _
  · exact .bind (.pure _) fun _ => .pure _

/-- What the evaluator says is what finitely many steps hand back. -/
theorem steps_hand_back (host : Host σ) (t : Tree) (scope : FrameId) (m : Machine σ) :
    ∃ n result m',
    (step host)^[n] (.starting t scope m) = ⟨.back result, [], m'⟩ ∧
    evalIn host t scope m = outcome result m' := by
  have enough : invocationLimit ≤ m.session.depth + m.levels := by
    unfold Machine.levels
    omega
  obtain ⟨-, leads⟩ := (carried host m.levels).tree t scope m enough
  obtain ⟨n, led⟩ := leads []
  have same : (Task.tree t scope).run host m.levels m = evalIn host t scope m := rfl
  cases ran : evalIn host t scope m with
  | ok _ m' =>
    exact ⟨n, .ok none, m',
      led.trans (congrArg (handed (fun _ => none) · []) (same.trans ran)), rfl⟩
  | error stop m' =>
      exact ⟨n, .error stop, m',
        led.trans (congrArg (handed (fun _ => none) · []) (same.trans ran)), rfl⟩

section Kept

variable {host : Host σ} (keeps : host.Keeps P)

include keeps

/-- What the methods keep holds when a tree has been run. -/
theorem keeps_evalIn (t : Tree) (scope : FrameId) : Run.Keeps P (evalIn host t scope) := by
  intro m holds
  obtain ⟨n, result, m', ended, ran⟩ := steps_hand_back host t scope m
  have starts : (Config.starting t scope m).Keeping P := ⟨holds, nofun, nofun⟩
  have kept := iterate_keeps host (fun c => Config.Keeping.step keeps (c := c)) starts n
  rw [ended] at kept
  rw [ran]
  cases result <;> exact kept.world

theorem keeps_runScript (t : Tree) : Run.Keeps P (runScript host t) := by
  intro m holds
  have inside := keeps_evalIn keeps t m.session.ambient m holds
  rw [runScript_eq]
  cases ran : evalIn host t m.session.ambient m with
  | ok _ m' =>
      rw [ran] at inside
      exact inside
  | error stop m' =>
      rw [ran] at inside
      cases stop <;> exact inside

/-- What the methods keep holds when a message has been answered, and also when its script
breaks. -/
theorem keeps_answer (language : Script.Language) (policy : StackPolicy) (text : String) :
    Run.Keeps P (answer host language policy text) := by
  refine .bind (.of_steady (steady_parsed language text)) fun result => ?_
  cases result with
  | error fault =>
    exact .bind (.of_steady (.push _)) fun _ => .of_steady (steady_written host policy)
  | ok t =>
    exact .bind (keeps_runScript keeps t.bare).caught fun _ =>
      .of_steady (steady_written host policy)

theorem keeps_answerLine (line : String) : Run.Keeps P (answerLine host line) := by
  refine .bind (.of_steady (steady_parsed .rho line)) fun result => ?_
  cases result with
  | error fault => exact .of_steady (.pure _)
  | ok t =>
      exact .bind (keeps_runScript keeps t.bare).caught fun _ =>
        .of_steady (.bind .get fun m => .pure ((host.encoder m).script m.session.values))

end Kept

end PeerScript
