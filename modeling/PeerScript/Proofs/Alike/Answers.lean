import PeerScript.Proofs.Alike.Parsing
import PeerScript.Proofs.Alike.Runs
import PeerScript.Proofs.Reception

/-!
# Answers that are the same

A text without hidden names has the same answer on two machines that look alike: the names in view
are the same for the parser, the script does the same, and values that look alike are written in the
same way.
-/

set_option autoImplicit false

namespace PeerScript

variable {σ : Type} {hidden : String → Prop} {root : FrameId} {w : Sides σ hidden root}
  {at_ : Places} {p : Pairing} {m m' : Machine σ}

/-- The same fault, or trees that look alike. -/
abbrev Parsed (hidden : String → Prop) :
    Pairing → Machine σ → Machine σ → Except Fault Tree → Except Fault Tree → Prop :=
  fun q _ _ => Agree (Tree.Alike hidden q)

theorem parsed_alike (language : Script.Language) {text : String}
    (avoids : Script.Avoids hidden text) (machines : Machines w at_ p m m') :
    Ends w at_ (Parsed hidden) p (parsed language text m) (parsed language text m') := by
  have agrees : Script.Context.Agrees hidden
      ⟨m.common.store.contains m.session.ambient, m.session.registry⟩
      ⟨m'.common.store.contains m'.session.ambient, m'.session.registry⟩ :=
    ⟨fun name shown => machines.contains_alike machines.ambient shown, machines.session.registry,
      machines.session.natural⟩
  have run := Script.parse_alike language agrees avoids machines.one machines.below
  rw [parsed_eq, parsed_eq, translation, translation]
  generalize Script.parse language
      ⟨m.common.store.contains m.session.ambient, m.session.registry⟩ text m.common.serial = x,
    Script.parse language
      ⟨m'.common.store.contains m'.session.ambient, m'.session.registry⟩ text
      m'.common.serial = y at run ⊢
  cases run with
  | error fault => exact .ok p.le_refl machines (.error fault)
  | @ok x y related =>
      obtain ⟨q, le, frames, one, below, ⟨left, right⟩, alike⟩ := related
      exact .ok le (machines.later le frames one rfl rfl rfl rfl below left right) (.ok alike)

theorem Tree.Alike.bare {t u : Tree} (h : t.Alike hidden p u) : t.bare.Alike hidden p u.bare := by
  cases h with
  | literal value => exact .literal value
  | reference shown => exact .reference shown
  | @call head ts us shown args =>
      cases head with
      | sequence =>
          have whole := Tree.Alike.call shown args
          cases args with
          | nil => exact whole
          | cons first rest =>
              cases rest with
              | nil => exact first
              | cons _ _ => exact whole
      | _ => exact .call shown args

/-- Stacks that look alike are written in the same way. -/
theorem Machines.written_eq (host host' : Host σ) (machines : Machines w at_ p m m') :
    m.written host = m'.written host' := by
  have values : (host.encoder m).values m.session.values =
      (host'.encoder m').values m'.session.values :=
    machines.session.stack.reverse.values_eq machines.session.registry
  exact congrArg (fun ts => String.ofList ([' '].intercalate ts)) values

theorem Machines.answered (policy : StackPolicy) (machines : Machines w at_ p m m') :
    Machines w at_ p (m.answered policy) (m'.answered policy) := by
  unfold Machine.answered
  split
  · exact machines.withStack .nil
  · exact machines

/-- A text without hidden names has the same answer on machines that look alike. -/
theorem answer_alike (host host' : Host σ) (language : Script.Language) (policy : StackPolicy)
    {text : String} (avoids : Script.Avoids hidden text) (rest : at_.left.depth = 0)
    (machines : Machines w at_ p m m') :
    Ends w at_ Equal p (answer host language policy text m)
      (answer host' language policy text m') := by
  have written : ∀ {q : Pairing} {n n' : Machine σ}, Machines w at_ q n n' →
      Ends w at_ Equal q
        ((do
          let m ← get
          if policy = .consumeOnReply then modify (·.withStack [])
          return (host.encoder m).script m.session.values : Run σ String) n)
        ((do
          let m ← get
          if policy = .consumeOnReply then modify (·.withStack [])
          return (host'.encoder m).script m.session.values : Run σ String) n') := by
    intro q n n' machines
    rw [answer_end, answer_end]
    exact .ok q.le_refl (machines.answered policy) (machines.written_eq host host')
  refine (parsed_alike language avoids machines).bind fun q le n n' x y machines parsed => ?_
  cases parsed with
  | error fault =>
      exact (Ends.push machines ((Value.Alike.str _).inHand rfl)).bind
        fun _ _ _ _ _ _ machines _ => written machines
  | ok alike =>
      exact (caught_alike (runScript_alike host host' alike.bare rest machines)).bind
        fun _ _ _ _ _ _ machines _ => written machines

end PeerScript
