import PeerScript.Proofs.Renumber.Runs
import PeerScript.Proofs.Scopes

/-!
# The names that a script binds

Which names a script binds can be read off its tree: those of the bindings that stand outside of
function bodies.  When a script that invokes no method of an object has run to its end, these names
and no others have come into view in its scope: functions bind what they bind in frames of their
own.
-/

set_option autoImplicit false

namespace PeerScript

variable {σ : Type}

/-- The names that a frame itself binds. -/
def Store.namesOf (s : Store) (f : FrameId) : List String := (s.bindings f).map (·.1)

theorem Store.mem_namesOf_set {s : Store} {f : FrameId} (there : f < s.frames.size) (name : String)
    (v : Value) (other : String) :
    other ∈ (s.set f name v).namesOf f ↔ other ∈ s.namesOf f ∨ other = name := by
  rw [namesOf, bindings_set v there, Association.put, List.map_cons, List.mem_cons]
  by_cases same : other = name
  · simp [same]
  · have kept : other ∈ (Association.erase name (s.bindings f)).map (·.1) ↔
        other ∈ s.namesOf f := by
      simp only [Association.erase, namesOf, List.mem_map, List.mem_filter]
      refine exists_congr fun b => and_congr_left ?_
      rintro rfl
      simp [same]
    rw [kept, or_comm]

/-- The names in view in a scope are those that it binds and those in view above it. -/
theorem Store.contains_iff {s : Store} {f : FrameId} {name : String} :
    s.contains f name = true ↔ ∃ g ∈ s.chain f, name ∈ s.namesOf g := by
  simp [contains, namesOf]

/-- A name comes into view when it is bound in the scope and all else stays as it is. -/
theorem Store.contains_of_names {s t : Store} {f : FrameId} {names : List String}
    (grows : s.Extends t) (there : f < s.frames.size)
    (others : ∀ g < s.frames.size, g ≠ f → t.bindings g = s.bindings g)
    (own : ∀ name, name ∈ t.namesOf f ↔ name ∈ s.namesOf f ∨ name ∈ names) (name : String) :
    t.contains f name = (names.contains name || s.contains f name) := by
  rw [Bool.eq_iff_iff, Bool.or_eq_true, List.contains_iff_mem, contains_iff, contains_iff,
    grows.chain_eq there]
  have above : ∀ g ∈ s.chain f, g ≠ f → t.namesOf g = s.namesOf g := fun g mem ne => by
    have lt := Nat.lt_of_le_of_lt (Store.chain_subset mem).1 there
    rw [namesOf, namesOf, others g lt ne]
  constructor
  · rintro ⟨g, mem, bound⟩
    by_cases same : g = f
    · subst same
      exact ((own name).mp bound).symm.imp_right fun bound => ⟨g, mem, bound⟩
    · exact .inr ⟨g, mem, above g mem same ▸ bound⟩
  · rintro (bound | ⟨g, mem, bound⟩)
    · exact ⟨f, s.mem_chain_self f, (own name).mpr (.inr bound)⟩
    · by_cases same : g = f
      · subst same
        exact ⟨g, mem, (own name).mpr (.inl bound)⟩
      · exact ⟨g, mem, above g mem same ▸ bound⟩

section Runs

variable {host : Host σ} {levels : Nat} {scope : FrameId} {m m' : Machine σ}

theorem Host.HasPlainMembers.mute_tidy (plain : host.HasPlainMembers) (writable : FrameId → Prop) :
    host.mute.IsTidy writable := ⟨plain, fun _ _ _ _ _ _ => trivial⟩

theorem Machine.Fit.mono {writable writable' : FrameId → Prop} (fit : m.Fit writable)
    (fresh : ∀ f, m.common.store.frames.size ≤ f → writable' f) : m.Fit writable' :=
  ⟨fit.owned, fit.made, fit.registry, fresh⟩

theorem Machine.Ready.lt (ready : m.Ready (fun _ => True) scope) :
    scope < m.common.store.frames.size := ready.owned.lt_of_alive ready.lives.alive

/-- What is called binds names in frames of its own. -/
theorem unwritten_path (plain : host.HasPlainMembers) (ready : m.Ready (fun _ => True) scope)
    {values : List Value} (made : ∀ μ ∈ Value.marksAll values, m.Made μ) {path : Path}
    (ran : callPath host.mute (inside host.mute levels) path values scope m = .ok () m')
    {f : FrameId} (lt : f < m.common.store.frames.size) :
    m'.common.store.bindings f = m.common.store.bindings f := by
  have tidy := plain.mute_tidy fun g => m.common.store.frames.size ≤ g
  have fit : m.Fit fun g => m.common.store.frames.size ≤ g := ready.toFit.mono fun _ => id
  have reached := (follows_path tidy (fun fewer _ => followed tidy fewer) fit ready.lives made
    (List.Subset.refl _)).reaches ran
  exact (reached.moves []).unwritten lt (Nat.not_le_of_lt lt)

theorem names_dispatch (plain : host.HasPlainMembers) (ready : m.Ready (fun _ => True) scope)
    {values : List Value} (made : ∀ μ ∈ Value.marksAll values, m.Made μ) {head : Head}
    (ran : dispatch host.mute (inside host.mute levels) head values scope m = .ok () m')
    (name : String) :
    name ∈ m'.common.store.namesOf scope ↔
      name ∈ m.common.store.namesOf scope ∨ name ∈ head.binds := by
  have same : m'.common.store.bindings scope = m.common.store.bindings scope → head.binds = [] →
      (name ∈ m'.common.store.namesOf scope ↔
        name ∈ m.common.store.namesOf scope ∨ name ∈ head.binds) := fun same none => by
    simp [Store.namesOf, same, none]
  cases head with
  | bind bound =>
      rw [dispatch] at ran
      cases last : values.getLast? with
      | none =>
          rw [last] at ran
          cases ran
      | some v =>
          rw [last] at ran
          cases ran
          have put := Store.mem_namesOf_set ready.lt bound v name
          rw [Head.binds, List.mem_singleton]
          exact put
  | sequence =>
      cases ran
      exact same rfl rfl
  | list =>
      cases ran
      exact same rfl rfl
  | op operator =>
      rw [dispatch] at ran
      cases applied : operator.apply values with
      | error fault =>
          rw [applied] at ran
          cases ran
      | ok v =>
          rw [applied] at ran
          cases ran
          exact same rfl rfl
  | construct typeName =>
      have step : dispatch host.mute (inside host.mute levels)
          (.construct typeName) values scope m =
          (Run.ofExcept (m.session.registry.decode typeName values m.common.serial) >>= fun v => do
            set (m.numbered (m.common.serial + 1))
            Run.push v : Run σ Unit) m := rfl
      rw [step] at ran
      cases decoded : m.session.registry.decode typeName values m.common.serial with
      | error fault =>
          rw [decoded] at ran
          cases ran
      | ok v =>
          rw [decoded] at ran
          cases ran
          exact same rfl rfl
  | invoke path => exact same (unwritten_path plain ready made ran ready.lt) rfl

mutual

/-- A tree that has run to its end has bound its names in its scope, and no others. -/
theorem names_tree (plain : host.HasPlainMembers) :
    ∀ (t : Tree) {m m' : Machine σ}, m.Ready (fun _ => True) scope → m.Accepts t →
      evalTree host.mute (inside host.mute levels) t scope m = .ok () m' → ∀ name,
        (name ∈ m'.common.store.namesOf scope ↔
          name ∈ m.common.store.namesOf scope ∨ name ∈ t.binds)
  | .literal v, m, m', ready, _, ran, name => by
      by_cases made : ∃ params body home, v = .closure params body home
      · obtain ⟨params, body, home, rfl⟩ := made
        rw [evalTree] at ran
        cases ran
        change name ∈ (m.capture scope).common.store.namesOf scope ↔ _
        simp [m.common_capture, Tree.binds]
      · have plain : ∀ ps b f, v ≠ .closure ps b f := fun ps b f same => made ⟨ps, b, f, same⟩
        rw [evalTree_plain _ _ plain] at ran
        cases ran
        exact (or_iff_left List.not_mem_nil).symm
  | .reference path, m, m', ready, _, ran, name => by
      rw [evalTree] at ran
      have tidy := plain.mute_tidy fun _ => True
      rcases resolve_cases tidy.member ready.lives.alive path with ⟨v, found, -⟩ | ⟨stop, failed⟩
      · rw [Run.bind_of_ok found] at ran
        cases ran
        exact (or_iff_left List.not_mem_nil).symm
      · rw [Run.bind_of_error failed] at ran
        exact nomatch ran
  | .call head args, m, m', ready, accepts, ran, name => by
      by_cases sequence : head = .sequence
      · subst sequence
        rw [evalTree] at ran
        rw [Tree.binds, Head.binds, List.append_nil]
        exact names_trees plain args ready accepts ran name
      · rw [evalTree_applied _ _ sequence, Run.bind_of_ok Run.height_eq] at ran
        have tidy := plain.mute_tidy fun _ => True
        cases first : evalTrees host.mute (inside host.mute levels) args scope m with
        | error stop m₁ =>
            rw [Run.bind_of_error first] at ran
            exact nomatch ran
        | ok a m₁ =>
            rw [Run.bind_of_ok first] at ran
            have args_names := names_trees plain args ready accepts first name
            have reached := (follows_trees tidy (fun fewer _ => followed tidy fewer) args ready
              accepts).reaches first
            have ready₁ := reached.ready ready nofun
            cases taken : Run.splitOff m.session.stack.length m₁ with
            | error stop m₂ =>
                rw [Run.bind_of_error taken] at ran
                exact nomatch ran
            | ok values m₂ =>
                rw [Run.bind_of_ok taken] at ran
                have split : Reaches (fun _ => True) m₁ [] [] m₂ (Value.marksAll values) :=
                  (follows_splitOff _).reaches taken
                have last := names_dispatch plain (split.ready ready₁ nofun)
                  (split.made ready₁.toFit nofun) ran name
                have store : m₂.common.store = m₁.common.store := by
                  rw [Run.splitOff_eq] at taken
                  split at taken <;> cases taken
                  rfl
                rw [last, store, args_names, Tree.binds, List.mem_append, or_assoc]
termination_by structural t => t

theorem names_trees (plain : host.HasPlainMembers) :
    ∀ (ts : List Tree) {m m' : Machine σ}, m.Ready (fun _ => True) scope →
      (∀ μ ∈ Tree.marksAll ts, ∃ n < m.common.serial, μ = .serial n) →
      evalTrees host.mute (inside host.mute levels) ts scope m = .ok () m' → ∀ name,
        (name ∈ m'.common.store.namesOf scope ↔
          name ∈ m.common.store.namesOf scope ∨ name ∈ Tree.bindsAll ts)
  | [], m, m', _, _, ran, name => by
      cases ran
      exact (or_iff_left List.not_mem_nil).symm
  | t :: rest, m, m', ready, accepts, ran, name => by
      rw [evalTrees] at ran
      have tidy := plain.mute_tidy fun _ => True
      have accepts₁ : m.Accepts t := fun μ mem => accepts μ (List.mem_append_left _ mem)
      cases first : evalTree host.mute (inside host.mute levels) t scope m with
      | error stop m₁ =>
          rw [Run.bind_of_error first] at ran
          exact nomatch ran
      | ok a m₁ =>
          rw [Run.bind_of_ok first] at ran
          have own := names_tree plain t ready accepts₁ first name
          have reached := (follows_tree tidy (fun fewer _ => followed tidy fewer) t ready
            accepts₁).reaches first
          have later : ∀ μ ∈ Tree.marksAll rest, ∃ n < m₁.common.serial, μ = .serial n :=
            fun μ mem => by
              obtain ⟨n, lt, same⟩ := accepts μ (List.mem_append_right _ mem)
              exact ⟨n, Nat.lt_of_lt_of_le lt (reached.moves []).serial_le, same⟩
          have others := names_trees plain rest (reached.ready ready nofun) later ran name
          rw [others, own, Tree.bindsAll, List.mem_append, or_assoc,
            or_comm (a := name ∈ t.binds)]
termination_by structural ts => ts

end

/-- Statements that have run to their end have brought their names into view, and no others. -/
theorem contains_of_trees (plain : host.HasPlainMembers) (ready : m.Ready (fun _ => True) scope)
    {ts : List Tree} (accepts : ∀ μ ∈ Tree.marksAll ts, ∃ n < m.common.serial, μ = .serial n)
    (ran : evalTrees host.mute (inside host.mute levels) ts scope m = .ok () m') (name : String) :
    m'.common.store.contains scope name =
      ((Tree.bindsAll ts).contains name || m.common.store.contains scope name) := by
  have tidy := plain.mute_tidy fun f => f = scope ∨ m.common.store.frames.size ≤ f
  have fit : m.Fit fun f => f = scope ∨ m.common.store.frames.size ≤ f :=
    ready.toFit.mono fun _ => .inr
  have reached := (follows_trees tidy (fun fewer _ => followed tidy fewer) ts
    ⟨fit, ready.lives, .inl rfl⟩ accepts).reaches ran
  refine Store.contains_of_names (reached.moves []).grows ready.lt (fun g lt ne => ?_)
    (fun name => names_trees plain ts ready accepts ran name) name
  exact (reached.moves []).unwritten lt (not_or.mpr ⟨ne, Nat.not_le_of_lt lt⟩)

end Runs

end PeerScript
