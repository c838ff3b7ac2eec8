import PeerScript.Proofs.Messages.Parsing
import PeerScript.Proofs.Messages.Seats
import PeerScript.Proofs.Renumber.Runs

/-!
# One message or two

It makes no difference whether two texts are sent one after the other or as one text with a line end
between them.  The tree of the whole has the statements of both, and running it ends as running the
second one behind the first one ends.

One thing is different: the instances that the trees hold get their numbers when a text is read, so
those of the second text get theirs before those that the first text makes when it runs.
`exchanged` tells which number an instance has in the whole.
-/

set_option autoImplicit false

namespace PeerScript

variable {σ : Type}

/-! ## Numbers -/

/-- The numbers from `first` on, moved up to make room for others. -/
def movedUp (first room n : Nat) : Nat := if n < first then n else n + room

/-- The numbers from `first` on and those from `second` on have changed places. -/
def exchanged (first second last n : Nat) : Nat :=
  if n < first then n
  else if n < second then n + (last - second)
  else if n < last then n - (second - first)
  else n

theorem movedUp_injective (first room : Nat) : (movedUp first room).Injective := by
  intro a b same
  unfold movedUp at same
  split at same <;> split at same <;> omega

theorem exchanged_injective {first second last : Nat} (le : first ≤ second) (le' : second ≤ last) :
    (exchanged first second last).Injective := by
  intro a b same
  unfold exchanged at same
  repeat' split at same
  all_goals omega

theorem exchanged_surjective {first second last : Nat} (le : first ≤ second) (le' : second ≤ last) :
    (exchanged first second last).Surjective := by
  intro n
  by_cases low : n < first
  · exact ⟨n, if_pos low⟩
  by_cases front : n < first + (last - second)
  · refine ⟨n + (second - first), ?_⟩
    unfold exchanged
    repeat' split
    all_goals omega
  by_cases back : n < last
  · refine ⟨n - (last - second), ?_⟩
    unfold exchanged
    repeat' split
    all_goals omega
  · refine ⟨n, ?_⟩
    unfold exchanged
    repeat' split
    all_goals omega

theorem exchanged_bijective {first second last : Nat} (le : first ≤ second) (le' : second ≤ last) :
    (exchanged first second last).Bijective :=
  ⟨exchanged_injective le le', exchanged_surjective le le'⟩

/-! ## Runs -/

/-- The result of a run with other numbers. -/
def renumbered (ρ : Nat → Nat) :
    EStateM.Result Stop (Machine σ) Unit → EStateM.Result Stop (Machine σ) Unit
  | .ok a m => .ok a (m.renumber ρ)
  | .error stop m => .error stop (m.renumber ρ)

/-- The text of a stack does not show the numbers of the instances on it. -/
theorem written_renumber (host : Host σ) (ρ : Nat → Nat) (m : Machine σ) :
    (m.renumber ρ).written host = m.written host := by
  have values : (m.renumber ρ).session.values = m.session.values.map (Value.renumber ρ) :=
    (List.map_reverse (f := Value.renumber ρ) (l := m.session.stack)).symm
  unfold Machine.written Encoder.script
  rw [values, ← Value.renumberAll_eq, Encoder.values_renumber]
  rfl

/-- Runs that end in the same way up to numbers leave stacks of the same text. -/
theorem written_of_renumbered (host : Host σ) {ρ : Nat → Nat} {r r' : Run σ Unit} {m m' : Machine σ}
    (same : r m = renumbered ρ (r' m')) :
    (r.final m).written host = (r'.final m').written host := by
  unfold Run.final
  rw [same]
  cases r' m' with
  | ok a m₁ => exact written_renumber host ρ m₁
  | error stop m₁ => exact written_renumber host ρ m₁

/-- The run of a tree invokes no method of an object. -/
def Machine.Refrains (host : Host σ) (t : Tree) (m : Machine σ) : Prop :=
  ∀ m', runScript host.mute t m ≠ .error .unfinished m'

section Runs

variable {host : Host σ} {m m' : Machine σ} {t : Tree} {ts us : List Tree} {ρ : Nat → Nat}

/-- What a script does is what its tree does, and a marker behind a fault. -/
theorem runScript_congr {u : Tree}
    (ran : evalIn host t m.session.ambient m = evalIn host u m'.session.ambient m') :
    runScript host t m = runScript host u m' := by
  rw [runScript_eq, runScript_eq, ran]

theorem evalTrees_append (inside : Option (Inside σ)) (ts us : List Tree) (scope : FrameId) :
    evalTrees host inside (ts ++ us) scope =
      (do
        evalTrees host inside ts scope
        evalTrees host inside us scope) := by
  induction ts with
  | nil => rfl
  | cons t ts ih => rw [List.cons_append, evalTrees, evalTrees, ih, bind_assoc]

/-- A script that invokes no method does the same where methods wait forever, with other numbers. -/
theorem runScript_renumber (inj : ρ.Injective) (plain : host.HasPlainMembers) (steady : m.Steady ρ)
    (refrains : m.Refrains host t) :
    runScript host (t.renumber ρ) (m.renumber ρ) = renumbered ρ (runScript host.mute t m) := by
  have same := mirrored_script inj plain steady t
  cases ran : runScript host.mute t m with
  | ok a m' => exact (same.ok a m' ran).1
  | error stop m' =>
      refine (same.error stop m' ran ?_).1
      rintro rfl
      exact refrains m' ran

theorem runScript_mute (plain : host.HasPlainMembers) (uniform : m.session.registry.IsUniform)
    (refrains : m.Refrains host t) : runScript host.mute t m = runScript host t m := by
  have same := runScript_renumber Function.injective_id plain ⟨fun _ _ => rfl, uniform⟩ refrains
  rw [Tree.renumber_id, Machine.renumber_id] at same
  rw [same]
  cases runScript host.mute t m <;> simp [renumbered, Machine.renumber_id]

theorem evalTrees_of_runScript (ran : runScript host (.sequence ts) m = .ok () m') :
    evalTrees host (inside host m.levels) ts m.session.ambient m = .ok () m' := by
  rw [runScript_eq] at ran
  change evalIn host (.sequence ts) m.session.ambient m = _
  cases ended : evalIn host (.sequence ts) m.session.ambient m with
  | ok a m₁ =>
      rw [ended] at ran
      exact ran
  | error stop m₁ =>
      rw [ended] at ran
      cases stop <;> cases ran

/-- Behind statements that have run to their end, others run as they would have alone. -/
theorem runScript_append (ran : runScript host (.sequence ts) m = .ok () m')
    (returns : m.Returns m') :
    runScript host (.sequence (ts ++ us)) m = runScript host (.sequence us) m' := by
  refine runScript_congr ?_
  change evalTrees host (inside host m.levels) (ts ++ us) m.session.ambient m =
    evalTrees host (inside host m'.levels) us m'.session.ambient m'
  have levels : m'.levels = m.levels := congrArg (invocationLimit - ·) returns.depth
  rw [evalTrees_append, Run.bind_of_ok (evalTrees_of_runScript ran), levels, returns.ambient]

end Runs

/-! ## Messages -/

section Messages

variable {host : Host σ} {m m₁ : Machine σ} {t u : Tree} {s₁ s₃ : Nat} {first second : String}
  {language : Script.Language}

/-- What a machine holds has numbers below its next one. -/
theorem Machine.IsMade.renumber_contents {ρ π : Nat → Nat} (made : m.IsMade)
    (same : ∀ n < m.common.serial, ρ n = π n) :
    m.session.renumber ρ = m.session.renumber π ∧
      m.common.store.renumber ρ = m.common.store.renumber π :=
  Machine.contents_congr (fun n mem => same n (made.stack _ mem)) fun f n mem =>
    same n (made.bound f _ mem)

/-- Other numbers for instances that are still to be made. -/
theorem Machine.IsMade.renumber_numbered {ρ : Nat → Nat} (made : m.IsMade)
    (same : ∀ n < m.common.serial, ρ n = n) (serial : Nat) :
    (m.numbered serial).renumber ρ = m.numbered (ρ serial) := by
  obtain ⟨session, store⟩ := made.renumber_contents (π := id) same
  change Machine.mk (m.session.renumber ρ) { m.common with
    store := m.common.store.renumber ρ, serial := ρ serial } = _
  rw [session, store, m.contents_id.1, m.contents_id.2]
  rfl

theorem Machine.Fit.numbered (fit : m.Fit fun _ => True) {serial : Nat}
    (le : m.common.serial ≤ serial) :
    (m.numbered serial).Fit fun _ => True where
  owned := fit.owned
  made := {
    stack := fun μ mem => by
      have made := fit.made.stack μ mem
      cases μ with
      | serial n => exact Nat.lt_of_lt_of_le made le
      | _ => trivial
    bound := fun f μ mem => by
      have made := fit.made.bound f μ mem
      cases μ with
      | serial n => exact Nat.lt_of_lt_of_le made le
      | _ => trivial }
  registry := fit.registry
  fresh _ _ := trivial

theorem lines_run (plain : host.HasPlainMembers) (fit : m.Fit fun _ => True)
    (natural : m.session.registry.IsNatural) (uniform : m.session.registry.IsUniform)
    (one : translation language first m = .ok (t, s₁))
    (ran : runScript host t (m.numbered s₁) = .ok () m₁)
    (two : translation language second m₁ = .ok (u, s₃))
    (refrains : (m.numbered s₁).Refrains host t) (refrains' : (m₁.numbered s₃).Refrains host u) :
    ∃ ts us ρ s, t = .sequence ts ∧ u = .sequence us ∧ ρ.Bijective ∧
      (∀ n, n < m.common.serial ∨ s₃ ≤ n → ρ n = n) ∧
      translation language (first ++ "\n" ++ second) m =
        .ok (.sequence (ts ++ us.map (Tree.renumber ρ)), s) ∧
      runScript host (.sequence (ts ++ us.map (Tree.renumber ρ))) (m.numbered s) =
        renumbered ρ (runScript host u (m₁.numbered s₃)) := by
  obtain ⟨grows, marks⟩ := marks_of_parse natural one
  obtain ⟨ts, rfl⟩ := Script.sequence_of_parse uniform one
  have fit₁ := fit.numbered grows
  have ready := fit₁.ready_ambient trivial
  -- the first text has left its names and nothing else in the scope
  have muted := (runScript_mute (m := m.numbered s₁) plain uniform refrains).trans ran
  have first_ran := evalTrees_of_runScript muted
  have tidy := plain.mute_tidy fun _ => True
  have reached :=
    (follows_trees tidy (fun fewer _ => followed tidy fewer) ts ready marks).reaches first_ran
  have returns := reached.returns
  have names := contains_of_trees plain ready marks first_ran
  have made : m₁.IsMade := (reached.ready ready (List.forall_mem_nil _)).made
  have le : s₁ ≤ m₁.common.serial := (reached.moves []).serial_le
  have registry : m₁.session.registry = m.session.registry := returns.registry
  have ambient : m₁.session.ambient = m.session.ambient := returns.ambient
  obtain ⟨us, rfl⟩ := Script.sequence_of_parse (registry ▸ uniform) two
  obtain ⟨grows', -⟩ := marks_of_parse (registry ▸ natural) two
  generalize known : m₁.common.serial = s₂ at le grows'
  let ρ := exchanged s₁ s₂ s₃
  let π := movedUp s₁ (s₃ - s₂)
  have low : ∀ n < s₁, ρ n = n ∧ π n = n := fun n lt => ⟨if_pos lt, if_pos lt⟩
  have agree : ∀ n < s₂, π n = ρ n := fun n lt => by
    change movedUp _ _ n = exchanged _ _ _ n
    unfold movedUp exchanged
    rw [if_pos lt]
  have high : ∀ n, s₃ ≤ n → ρ n = n := fun n large => by
    change exchanged _ _ _ n = n
    unfold exchanged
    repeat' split
    all_goals omega
  have two' : Script.parse language
      ⟨m₁.common.store.contains m₁.session.ambient, m₁.session.registry⟩ second s₂ =
        .ok (.sequence us, s₃) := known ▸ two
  have parsed : translation language (first ++ "\n" ++ second) m =
      .ok (.sequence (ts ++ us.map (Tree.renumber ρ)), s₁ + (s₃ - s₂)) := by
    have parsed := fun bound window => Script.parse_lines uniform registry bound
      (exchanged_injective le grows') window le one two'
    refine parsed (fun name => ?_) ?_
    · change m₁.common.store.contains m₁.session.ambient name = _
      rw [ambient, ← List.contains_eq_mem]
      exact names name
    · intro n from_ below
      unfold exchanged
      repeat' split
      all_goals omega
  refine ⟨ts, us, ρ, s₁ + (s₃ - s₂), rfl, rfl, exchanged_bijective le grows', ?_, parsed, ?_⟩
  · rintro n (old | new)
    · exact (low n (Nat.lt_of_lt_of_le old grows)).1
    · exact high n new
  -- the statements of the first text, with room for the instances in the second one
  have start : (m.numbered s₁).renumber π = m.numbered (s₁ + (s₃ - s₂)) := by
    have next : π s₁ = s₁ + (s₃ - s₂) := if_neg (Nat.lt_irrefl s₁)
    rw [fit.made.renumber_numbered (fun n lt => (low n (Nat.lt_of_lt_of_le lt grows)).2), next]
  have same : (Tree.sequence ts).renumber π = .sequence ts := by
    refine (Tree.renumber_congr (π := id) fun n mem => ?_).trans (Tree.renumber_id _)
    obtain ⟨k, lt, same⟩ := marks _ mem
    cases same
    exact (low n lt).2
  have steady : (m.numbered s₁).Steady π := by
    refine ⟨fun n from_ => ?_, uniform⟩
    have from_ : s₁ ≤ n := from_
    change movedUp _ _ (n + 1) = movedUp _ _ n + 1
    unfold movedUp
    rw [if_neg (by omega), if_neg (by omega)]
    omega
  have front : runScript host (.sequence ts) (m.numbered (s₁ + (s₃ - s₂))) =
      .ok () (m₁.renumber π) := by
    have moved := runScript_renumber (movedUp_injective s₁ _) plain steady refrains
    rw [muted] at moved
    rw [← start, ← same]
    exact moved
  have returns' : (m.numbered (s₁ + (s₃ - s₂))).Returns (m₁.renumber π) :=
    ⟨returns.registry, returns.ambient, returns.running, returns.depth, returns.held,
      returns.watched⟩
  rw [runScript_append front returns']
  -- those of the second one, with all numbers exchanged
  have behind : m₁.renumber π = (m₁.numbered s₃).renumber ρ := by
    obtain ⟨session, store⟩ := made.renumber_contents (π := ρ) (known ▸ agree)
    have next : π m₁.common.serial = ρ s₃ := by
      rw [known, high s₃ (Nat.le_refl _)]
      change movedUp _ _ s₂ = s₃
      rw [movedUp, if_neg (Nat.not_lt_of_le le)]
      omega
    change Machine.mk (m₁.session.renumber π) { m₁.common with
      store := m₁.common.store.renumber π, serial := π m₁.common.serial } = _
    rw [session, store, next]
    rfl
  have steady' : (m₁.numbered s₃).Steady ρ := by
    refine ⟨fun n from_ => ?_, registry ▸ uniform⟩
    rw [high n from_, high (n + 1) (Nat.le_succ_of_le from_)]
  have moved := runScript_renumber (exchanged_injective le grows') plain steady' refrains'
  rw [runScript_mute (m := m₁.numbered s₃) plain (registry ▸ uniform) refrains'] at moved
  have trees : (Tree.sequence us).renumber ρ = .sequence (us.map (Tree.renumber ρ)) := by
    rw [Tree.sequence, Tree.renumber, Tree.renumberAll_eq]
    rfl
  rw [behind, ← moved, trees]

/-- In all states of a session, and for texts that invoke no methods: if the first text can be read
and its run succeeds, and the second one can be read behind it, then both can be read as one text
with a line end between them.  The tree of the whole is the statements of the first text and then
those of the second one, and it runs to the same result as the second text does behind the first
one, with the same stack, a marker included, and the same bindings.  Only the numbers of instances
are different, and no instance that was there before gets another one; the text of the stack does
not show them, so it is the same.

The objects that earlier scripts have met may be others than those of the host. -/
theorem one_message_or_two {earlier : Host σ} {log : List Event}
    (tidy : earlier.IsTidy fun _ => True) (life : Life earlier m log) (plain : host.HasPlainMembers)
    (natural : m.session.registry.IsNatural) (uniform : m.session.registry.IsUniform)
    (one : translation language first m = .ok (t, s₁))
    (ran : runScript host t (m.numbered s₁) = .ok () m₁)
    (two : translation language second m₁ = .ok (u, s₃))
    (refrains : (m.numbered s₁).Refrains host t) (refrains' : (m₁.numbered s₃).Refrains host u) :
    ∃ ts us ρ s, t = .sequence ts ∧ u = .sequence us ∧ ρ.Bijective ∧
      (∀ n, n < m.common.serial ∨ s₃ ≤ n → ρ n = n) ∧
      translation language (first ++ "\n" ++ second) m =
        .ok (.sequence (ts ++ us.map (Tree.renumber ρ)), s) ∧
      runScript host (.sequence (ts ++ us.map (Tree.renumber ρ))) (m.numbered s) =
        renumbered ρ (runScript host u (m₁.numbered s₃)) ∧
      ((runScript host (.sequence (ts ++ us.map (Tree.renumber ρ)))).final (m.numbered s)).written
    host = ((runScript host u).final (m₁.numbered s₃)).written host := by
  obtain ⟨keeps, kept⟩ := life.kept tidy
  obtain ⟨ts, us, ρ, s, whole, rest, bijective, fixed, parsed, same⟩ :=
    lines_run plain ⟨kept.sound.owned, kept.sound.made, keeps, fun _ _ => trivial⟩ natural uniform
      one ran two refrains refrains'
  exact ⟨ts, us, ρ, s, whole, rest, bijective, fixed, parsed, same, written_of_renumbered host same⟩

end Messages

/-! ## An example -/

section Example

open Network (serving firstMachine)
open Service (Server)

/-- Whether two texts can be read and run one behind the other where methods wait forever. -/
def goesThrough (host : Host σ) (language : Script.Language) (first second : String)
    (m : Machine σ) :
    Bool :=
  match translation language first m with
  | .error _ => false
  | .ok (t, s₁) =>
      match runScript host.mute t (m.numbered s₁) with
      | .error _ _ => false
      | .ok _ m₁ =>
          match translation language second m₁ with
          | .error _ => false
          | .ok (u, s₃) =>
              match runScript host.mute u (m₁.numbered s₃) with
              | .error _ _ => false
              | .ok _ _ => true

set_option maxRecDepth 20000 in
theorem goesThrough_doubled {s : Server} (made : Server.new .loopback .standard 0 = .ok s) :
    goesThrough Network.host .rho "x = 1" "x + x" (firstMachine s) = true := by
  have goes : (Server.new .loopback .standard 0).map (fun s =>
      goesThrough Network.host .rho "x = 1" "x + x" (firstMachine s)) = .ok true := by cbv
  rw [made, Except.map] at goes
  injection goes

theorem Network.host_hasPlainMembers (settle : Network → Network) :
    (Network.hostWith settle).HasPlainMembers := by
  intro n o name v found
  change (if _ then _ else _) = _ at found
  split at found
  · cases found
    cases (n.peer o.serial).entered <;> rfl
  · exact nomatch found

theorem one_message_or_two_doubled :
    ∃ (s : Server) (m₁ : Machine Network) (t u : Tree) (s₁ s₃ : Nat),
      Server.new .loopback .standard 0 = .ok s ∧
      translation .rho "x = 1" (firstMachine s) = .ok (t, s₁) ∧
      runScript Network.host t ((firstMachine s).numbered s₁) = .ok () m₁ ∧
      translation .rho "x + x" m₁ = .ok (u, s₃) ∧
      ∃ ts us ρ n, t = .sequence ts ∧ u = .sequence us ∧ ρ.Bijective ∧
        (∀ n, n < (firstMachine s).common.serial ∨ s₃ ≤ n → ρ n = n) ∧
        translation .rho ("x = 1" ++ "\n" ++ "x + x") (firstMachine s) =
          .ok (.sequence (ts ++ us.map (Tree.renumber ρ)), n) ∧
        runScript Network.host (.sequence (ts ++ us.map (Tree.renumber ρ)))
            ((firstMachine s).numbered n) =
          renumbered ρ (runScript Network.host u (m₁.numbered s₃)) ∧
        ((runScript Network.host (.sequence (ts ++ us.map (Tree.renumber ρ)))).final
            ((firstMachine s).numbered n)).written Network.host =
          ((runScript Network.host u).final (m₁.numbered s₃)).written Network.host := by
  obtain ⟨s, made⟩ := Network.new_loopback
  have goes := goesThrough_doubled made
  have same : s.registry = .standard := (Store.IsNumbered.of_new Registry.standard_isNatural made).2
  have plain : Network.host.HasPlainMembers := Network.host_hasPlainMembers _
  have tidy := plain.mute_tidy fun _ => True
  have life := (Network.life_of_new Registry.standard_isNatural Registry.standard_keepsMarks made
    Network.host.mute (serving s) 0 (.connection 1)).2
  have uniform : (firstMachine s).session.registry.IsUniform := by
    change s.registry.IsUniform
    rw [same]
    exact Registry.standard_isUniform
  have natural : (firstMachine s).session.registry.IsNatural := by
    change s.registry.IsNatural
    rw [same]
    exact Registry.standard_isNatural
  unfold goesThrough at goes
  split at goes
  · exact nomatch goes
  rename_i t s₁ one
  split at goes
  · exact nomatch goes
  rename_i m₁ muted
  split at goes
  · exact nomatch goes
  rename_i u s₃ two
  split at goes
  · exact nomatch goes
  rename_i m₂ muted'
  have refrains : ((firstMachine s).numbered s₁).Refrains Network.host t := by
    intro m' stuck
    rw [muted] at stuck
    exact nomatch stuck
  have refrains' : (m₁.numbered s₃).Refrains Network.host u := by
    intro m' stuck
    rw [muted'] at stuck
    exact nomatch stuck
  have ran :=
    (runScript_mute (m := (firstMachine s).numbered s₁) plain uniform refrains).symm.trans muted
  exact ⟨s, m₁, t, u, s₁, s₃, made, one, ran, two,
    one_message_or_two tidy life plain natural uniform one ran two refrains refrains'⟩

end Example

end PeerScript
