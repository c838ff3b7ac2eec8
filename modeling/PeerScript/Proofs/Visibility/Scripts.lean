import Mathlib
import PeerScript.Proofs.Visibility.Compact
import PeerScript.Proofs.Visibility.Statements
import PeerScript.Script.Language

/-!
# Whether a script is refused for a name

Where no types are registered, the names that are bound outside of a script make no difference to
what it means.  They only decide whether it is refused, and `parse_eq_of_parse` says how: at the
first name that its tree uses where it is not in view.
-/

set_option autoImplicit false

namespace PeerScript.Script

open Text (Position)

/-- What becomes of a text in a context where its tree misses the given names: it is read, or it is
refused at a place where the first of them stands. -/
def Resolves (source : String) (done : Tree × Nat) : List String → Except Fault (Tree × Nat) → Prop
  | [], r => r = .ok done
  | name :: _, r => ∃ placed place, tokenize source = .ok placed ∧ ⟨.name name, place⟩ ∈ placed ∧
      r = .error (.unknownName place name)

/-- A script is read like the statements in it. -/
theorem resolves_of_checks {ctx : Context} {source : String} {placed : List Placed}
    (cut : tokenize source = .ok placed) {read₀ read : Parser (List Tree)}
    (checks : Checks placed read₀ read [[]] (Tree.AllMiss ctx [[]])) {start : Cursor}
    (within : start.rest ⊆ placed) (shown : start.names = [[]]) {done : Tree × Nat}
    (ran : (do let (ts, c) ← read₀ start; return (.sequence ts, c.serial)) = Except.ok done) :
    Resolves source done (done.1.missing ctx [[]])
      (do let (ts, c) ← read start; return (.sequence ts, c.serial)) := by
  cases first : read₀ start with
  | error fault =>
      rw [first] at ran
      cases ran
  | ok r =>
      obtain ⟨ts, c⟩ := r
      rw [first] at ran
      cases ran
      obtain ⟨-, missed, misses, outcome⟩ := checks within shown first
      have whole : (Tree.sequence ts).missing ctx [[]] = missed := by
        rw [misses.missed, Tree.sequence, Tree.missing, Head.binds, modifyHead_nil_append,
          Head.missing, List.append_nil]
        exact fun _ => Head.noConfusion
      dsimp only
      rw [whole]
      cases missed with
      | nil =>
          have same : read start = .ok (ts, c) := outcome
          rw [same]
          rfl
      | cons name _ =>
          obtain ⟨place, mem, stopped⟩ := outcome
          refine ⟨placed, place, cut, mem, ?_⟩
          rw [stopped]
          rfl

/-- Where no types are registered, a text that is read in one context is read as the same tree in
another one exactly if the tree finds in view all names that it uses, each where it uses it; and if
not, the text is refused for the first name that it looks up in vain. -/
theorem parse_eq_of_parse {language : Language} {ctx₀ ctx : Context}
    (bare₀ : ∀ name, ctx₀.registry.contains name = false)
    (bare : ∀ name, ctx.registry.contains name = false) {source : String}
    {serial next : Nat} {t : Tree} (parsed : parse language ctx₀ source serial = .ok (t, next)) :
    ((∃ r, parse language ctx source serial = .ok r) ↔ t.InScope ctx [[]]) ∧
      Resolves source (t, next) (t.missing ctx [[]]) (parse language ctx source serial) := by
  have resolves : Resolves source (t, next) (t.missing ctx [[]])
      (parse language ctx source serial) := by
    rw [parse] at parsed ⊢
    cases cut : tokenize source with
    | error fault =>
        rw [cut] at parsed
        cases parsed
    | ok placed =>
        rw [cut] at parsed
        cases language with
        | rho =>
            exact resolves_of_checks cut
              ((Rho.tower_checks bare₀ bare _).statements nestingLimit .finish [[]]
              (List.cons_ne_nil _ _)) (List.Subset.refl _) rfl parsed
        | pi =>
            exact resolves_of_checks cut
              (Pi.script_checks (Pi.term_checks bare₀ bare nestingLimit) _ [[]]
              (List.cons_ne_nil _ _)) (List.filter_subset_self _) rfl parsed
  refine ⟨?_, resolves⟩
  rw [← Tree.missing_eq_nil_iff]
  cases missing : t.missing ctx [[]] with
  | nil =>
      rw [missing] at resolves
      exact ⟨fun _ => rfl, fun _ => ⟨_, resolves⟩⟩
  | cons name rest =>
      rw [missing] at resolves
      obtain ⟨placed, place, -, -, refused⟩ := resolves
      rw [refused]
      exact ⟨by rintro ⟨_, ⟨⟩⟩, by rintro ⟨⟩⟩

/-- A function that calls what is not bound with a parameter of its own and another unbound name. -/
def forwarding : String := "fun f(a) \x7b g(a, b) \x7d\nf(c)"

/-- All names are bound. -/
def boundless : Context := ⟨fun _ => true, .empty⟩

/-- One name is bound. -/
def sparse : Context := ⟨fun name => name == "c", .empty⟩

set_option maxRecDepth 20000 in
/-- The arguments of a call are looked at in front of what is called, and a parameter is in view. -/
theorem parse_eq_of_parse_forwarding : ∃ t,
    (∀ name, boundless.registry.contains name = false) ∧
    (∀ name, sparse.registry.contains name = false) ∧
    parse .rho boundless forwarding 0 = .ok (t, 0) ∧
    t.missing sparse [[]] = ["b", "g"] ∧
    (¬ ∃ r, parse .rho sparse forwarding 0 = .ok r) ∧
    ∃ place, parse .rho sparse forwarding 0 = .error (.unknownName place "b") := by
  have bare₀ : ∀ name, boundless.registry.contains name = false := fun _ => rfl
  have bare : ∀ name, sparse.registry.contains name = false := fun _ => rfl
  have parsed : parse .rho boundless forwarding 0 = .ok (.sequence [
      .bind "f" (.literal (.closure ["a"]
        (.sequence [.invoke ⟨["g"]⟩ [.reference ⟨["a"]⟩, .reference ⟨["b"]⟩]]) none)),
      .invoke ⟨["f"]⟩ [.reference ⟨["c"]⟩]], 0) := by
    cbv
  have missing : (Tree.sequence [
      .bind "f" (.literal (.closure ["a"]
        (.sequence [.invoke ⟨["g"]⟩ [.reference ⟨["a"]⟩, .reference ⟨["b"]⟩]]) none)),
      .invoke ⟨["f"]⟩ [.reference ⟨["c"]⟩]]).missing sparse [[]] = ["b", "g"] := by
    cbv
  obtain ⟨read, resolves⟩ := parse_eq_of_parse bare₀ bare parsed
  rw [← Tree.missing_eq_nil_iff, missing] at read
  rw [missing] at resolves
  obtain ⟨placed, place, -, -, refused⟩ := resolves
  exact ⟨_, bare₀, bare, parsed, missing, fun ok => List.cons_ne_nil _ _ (read.mp ok),
    place, refused⟩

end PeerScript.Script
