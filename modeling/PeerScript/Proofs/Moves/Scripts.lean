import PeerScript.Proofs.Alike.Parsing
import PeerScript.Proofs.Moves.Follow

/-!
# The marks of scripts

What a text is a script for has no functions with homes in it, and its instances have the numbers
that were free when it was translated: a machine can run it.  The types of the standard registry
make instances of what they are given.
-/

set_option autoImplicit false

namespace PeerScript

variable {σ : Type} {hidden : String → Prop} {p : Pairing}

/-- The frame or the number of a mark has a partner. -/
def Pairing.Pairs (p : Pairing) : Mark → Prop
  | .home f | .inner f => ∃ g, p.frames f g
  | .serial n => ∃ k, p.serials n k

theorem Pairing.Pairs.within {μ : Mark} (h : p.Pairs μ) : p.Pairs μ.within := by
  cases μ <;> exact h

mutual

/-- Values are alike only if their marks have partners. -/
theorem Value.Alike.pairs : ∀ {v w : Value}, v.Alike hidden p w → ∀ μ ∈ v.marks, p.Pairs μ
  | .bool _, _, _ | .int _, _, _ | .float _, _, _ | .str _, _, _ | .native _, _, _ => nofun
  | .list _, _, h => by
      cases h with
      | list items => exact items.pairsAll
  | .closure .., _, h => by
      cases h with
      | closure body home =>
          intro μ mem
          rw [Value.marks, List.mem_append, List.mem_map, List.mem_map] at mem
          rcases mem with ⟨f, own, rfl⟩ | ⟨ν, mem, rfl⟩
          · cases home with
            | none => exact nomatch own
            | some paired =>
                cases List.mem_singleton.mp own
                exact ⟨_, paired⟩
          · exact (body.pairs ν mem).within
  | .handle .., _, h => by
      cases h with
      | handle paired fields =>
          intro μ mem
          rcases List.mem_cons.mp mem with rfl | mem
          · exact ⟨_, paired⟩
          · exact fields.pairsAll μ mem
  | .object _, _, h => nomatch h
termination_by structural v => v

theorem Value.AllAlike.pairsAll : ∀ {vs ws : List Value}, Value.AllAlike hidden p vs ws →
    ∀ μ ∈ Value.marksAll vs, p.Pairs μ
  | [], _, _ => nofun
  | _ :: _, _, h => by
      cases h with
      | cons first rest =>
          intro μ mem
          exact (List.mem_append.mp mem).elim (first.pairs μ) (rest.pairsAll μ)
termination_by structural vs => vs

theorem Tree.Alike.pairs : ∀ {t u : Tree}, t.Alike hidden p u → ∀ μ ∈ t.marks, p.Pairs μ
  | .literal _, _, h => by
      cases h with
      | literal value => exact value.pairs
  | .reference _, _, _ => nofun
  | .call .., _, h => by
      cases h with
      | call _ args => exact args.pairsAll
termination_by structural t => t

theorem Tree.AllAlike.pairsAll : ∀ {ts us : List Tree}, Tree.AllAlike hidden p ts us →
    ∀ μ ∈ Tree.marksAll ts, p.Pairs μ
  | [], _, _ => nofun
  | _ :: _, _, h => by
      cases h with
      | cons first rest =>
          intro μ mem
          exact (List.mem_append.mp mem).elim (first.pairs μ) (rest.pairsAll μ)
termination_by structural ts => ts

end

/-- The functions in the tree of a text have no homes, and its instances have numbers. -/
theorem marks_of_parse {registry : Registry} (natural : registry.IsNatural)
    {language : Script.Language} {isBound : String → Bool} {source : String} {serial after : Nat}
    {tree : Tree} (parsed : Script.parse language ⟨isBound, registry⟩ source serial =
      .ok (tree, after)) :
    serial ≤ after ∧ ∀ μ ∈ tree.marks, ∃ n < after, μ = .serial n := by
  have agrees : Script.Context.Agrees (fun _ => False) ⟨isBound, registry⟩ ⟨isBound, registry⟩ :=
    ⟨fun _ _ => rfl, rfl, natural⟩
  have avoids : Script.Avoids (fun _ => False) source := fun _ _ _ _ _ _ => id
  have run := Script.parse_alike language agrees avoids Pairing.nothing_isOneToOne
    (Pairing.nothing_below serial serial)
  rw [parsed] at run
  cases run with
  | ok related =>
      obtain ⟨q, -, frames, -, below, ⟨grows, -⟩, alike⟩ := related
      refine ⟨grows, fun μ mem => ?_⟩
      have covered := alike.pairs μ mem
      cases μ with
      | serial n =>
          obtain ⟨k, paired⟩ := covered
          exact ⟨n, (below n k paired).1, rfl⟩
      | home f | inner f =>
          obtain ⟨g, paired⟩ := covered
          rw [frames] at paired
          exact paired.elim

/-! ## The standard registry -/

theorem Value.marks_component {v w : Value} (h : v.component = .ok w) : w.marks = [] := by
  unfold Value.component at h
  split at h
  · cases h
    rfl
  · cases h

theorem WireType.marks_vector3 {vs fields : List Value}
    (h : WireType.vector3.decode vs = .ok fields) :
    Value.marksAll fields = [] := by
  have components : ∀ {vs fields : List Value}, vs.mapM Value.component = .ok fields →
      Value.marksAll fields = [] := by
    intro vs
    induction vs with
    | nil =>
        intro fields h
        cases h
        rfl
    | cons v vs ih =>
        intro fields h
        rw [List.mapM_cons] at h
        cases first : v.component with
        | error fault =>
            rw [first] at h
            exact nomatch h
        | ok w =>
            rw [first] at h
            cases rest : vs.mapM Value.component with
            | error fault =>
                rw [rest] at h
                exact nomatch h
            | ok ws =>
                rw [rest] at h
                cases h
                rw [Value.marksAll, Value.marks_component first, ih rest]
                rfl
  obtain _ | ⟨x, _ | ⟨y, _ | ⟨z, _ | ⟨w, more⟩⟩⟩⟩ := vs
  case cons.cons.cons.nil => exact components h
  all_goals exact nomatch h

theorem Registry.standard_keepsMarks : Registry.standard.KeepsMarks := by
  intro name vs n v made
  unfold Registry.decode at made
  have named : Registry.standard.named? name = none ∨
      Registry.standard.named? name = some .vector3 := by
    have found : Registry.standard.named? name =
        (Association.put WireType.vector3.name WireType.vector3 []).lookup name := rfl
    rw [Association.lookup_put] at found
    split at found
    · exact .inr found
    · exact .inl found
  rcases named with unknown | known
  · rw [unknown] at made
    exact nomatch made
  · rw [known] at made
    dsimp only at made
    split at made
    · rename_i fields decoded
      cases made
      rw [Value.marks, WireType.marks_vector3 decoded]
      exact List.cons_subset_cons _ (List.nil_subset _)
    · exact nomatch made

end PeerScript
