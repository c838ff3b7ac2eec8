import PeerScript.Operator.Apply
import PeerScript.Proofs.Running

/-!
# How runs stop

`Stops` bounds the ways in which a run can stop, whatever machine it starts from.  A builtin stops
with one of four faults, which `Builtin.Refuses` lists, and an operator with one of five, listed by
`Operator.Refuses`.
-/

set_option autoImplicit false

namespace PeerScript

variable {σ α β : Type}

namespace Run

/-- When the run stops, it does so in one of the given ways. -/
def Stops (ways : Stop → Prop) (r : Run σ α) : Prop := ∀ m m' stop, r m = .error stop m' → ways stop

namespace Stops

variable {ways : Stop → Prop}

theorem bind {r : Run σ α} {f : α → Run σ β} (h : Stops ways r) (next : ∀ a, Stops ways (f a)) :
    Stops ways (r >>= f) := by
  intro m m' stop stopped
  cases ran : r m with
  | ok a m₁ =>
      rw [bind_of_ok ran] at stopped
      exact next a m₁ m' stop stopped
  | error stop m₁ =>
      rw [bind_of_error ran] at stopped
      cases stopped
      exact h m m' stop ran

theorem of_ok {r : Run σ α} (h : ∀ m, ∃ a m', r m = .ok a m') : Stops ways r := by
  intro m m' stop stopped
  obtain ⟨a, m₁, ok⟩ := h m
  exact nomatch ok.symm.trans stopped

theorem pure (a : α) : Stops ways (Pure.pure a : Run σ α) := of_ok fun m => ⟨a, m, rfl⟩

theorem get : Stops ways (get : Run σ (Machine σ)) := of_ok fun m => ⟨m, m, rfl⟩

theorem modify (f : Machine σ → Machine σ) : Stops ways (modify f : Run σ PUnit) :=
  of_ok fun m => ⟨_, f m, rfl⟩

theorem push (v : Value) : Stops ways (push v : Run σ Unit) := modify _

theorem fail {fault : Fault} (may : ways (.failed fault)) : Stops ways (fail fault : Run σ α) := by
  intro m m' stop stopped
  cases stopped
  exact may

theorem ofExcept {result : Except Fault α}
    (may : ∀ fault, result = .error fault → ways (.failed fault)) :
    Stops ways (ofExcept result : Run σ α) := by
  cases result with
  | ok a => exact pure a
  | error fault => exact fail (may fault rfl)

theorem pop (may : ways (.failed .stackUnderflow)) : Stops ways (pop : Run σ Value) := by
  refine bind get fun m => ?_
  split
  · exact fail may
  · exact bind (modify _) fun _ => pure _

end Stops

end Run

open Run

/-- The faults of builtins. -/
inductive Builtin.Refuses : Stop → Prop
  | arity (name : String) (expected got : Nat) : Refuses (.failed (.arity name expected got))
  | assertion : Refuses (.failed .assertionFailed)
  | underflow : Refuses (.failed .stackUnderflow)
  | type (detail : String) : Refuses (.failed (.typeError detail))

/-- Builtins stop with faults of their own only. -/
theorem stops_builtin (host : Host σ) (b : Builtin) (args : List Value) :
    Stops Builtin.Refuses (b.run host args) := by
  have noArgs : ∀ b : Builtin, Stops Builtin.Refuses (b.noArgs args : Run σ Unit) := by
    intro b
    unfold Builtin.noArgs
    split
    · exact .pure ()
    · exact .fail (.arity ..)
  have single : ∀ b : Builtin, Stops Builtin.Refuses (b.single args : Run σ Value) := by
    intro b
    unfold Builtin.single
    split
    · exact .pure _
    · exact .fail (.arity ..)
  cases b with
  | assert =>
      rw [Builtin.run]
      split
      · exact .fail (.arity ..)
      · split
        · exact .pure _
        · exact .fail .assertion
  | print => exact .bind .get fun _ => .bind (.modify _) fun _ => .pure _
  | depth =>
    exact .bind (noArgs _) fun _ => .bind (.of_ok fun m => ⟨_, m, height_eq⟩) fun _ => .pure _
  | drop => exact .bind (noArgs _) fun _ => .bind (.pop .underflow) fun _ => .pure _
  | dup =>
      refine .bind (noArgs _) fun _ => .bind .get fun m => ?_
      split
      · exact .fail .underflow
      · exact .pure _
  | swap =>
      refine .bind (noArgs _) fun _ => .bind .get fun m => ?_
      split
      · exact .bind (.modify _) fun _ => .pure _
      · exact .fail .underflow
  | clear => exact .bind (noArgs _) fun _ => .bind (.modify _) fun _ => .pure _
  | len =>
      refine .bind (single _) fun v => ?_
      split
      · exact .pure _
      · exact .pure _
      · exact .fail (.type _)
  | str => exact .bind (single _) fun _ => .bind .get fun _ => .pure _
  | type => exact .bind (single _) fun _ => .pure _

/-! ## Operators -/

namespace Operator

/-- The faults of operators. -/
inductive Refuses : Fault → Prop
  | arity (symbol : String) (expected got : Nat) : Refuses (.arity symbol expected got)
  | type (operator : Operator) (operands : List Value) : Refuses (refuse operator operands)
  | overflow : Refuses .overflow
  | zero : Refuses .divisionByZero
  | underflow : Refuses .stackUnderflow

variable {operator : Operator} {a b : Value} {vs : List Value} {fault : Fault}

theorem refuses_exactly {n : Int} (h : exactly n = .error fault) : Refuses fault := by
  unfold exactly at h
  split at h <;> cases h
  exact .overflow

theorem refuses_arithmetic (h : arithmetic operator a b = .error fault) : Refuses fault := by
  unfold arithmetic at h
  split at h
  · unfold integer at h
    dsimp only at h
    repeat' split at h
    all_goals first
      | exact refuses_exactly h
      | (cases h
         first | exact .zero | exact .overflow | exact .type ..)
  · split at h
    · unfold floating at h
      split at h <;> cases h
      exact .type ..
    · cases h
      exact .type ..

theorem refuses_compare (h : compare operator a b = .error fault) : Refuses fault := by
  unfold compare at h
  split at h <;> cases h
  exact .type ..

theorem refuses_applyOne (h : operator.applyOne a = .error fault) : Refuses fault := by
  unfold applyOne at h
  split at h
  case h_2 => exact refuses_exactly h
  all_goals cases h
  · exact .type ..
  · exact .underflow

theorem refuses_sum (h : sum a b = .error fault) : Refuses fault := by
  unfold sum at h
  split at h
  · exact nomatch h
  · exact nomatch h
  · exact refuses_arithmetic h

theorem refuses_applyTwo (h : operator.applyTwo a b = .error fault) : Refuses fault := by
  unfold applyTwo at h
  split at h
  all_goals first
    | exact refuses_sum h
    | exact refuses_compare h
    | exact refuses_arithmetic h
    | exact refuses_applyOne h
    | exact nomatch h

/-- Operators fail with faults of their own only. -/
theorem refuses_apply (h : operator.apply vs = .error fault) : Refuses fault := by
  unfold apply at h
  split at h
  · cases h
    exact .arity ..
  · split at h
    · exact refuses_applyOne h
    · exact refuses_applyTwo h
    · cases h
      exact .underflow

end Operator

/-- What is not decoded has no type, or its type rejects the fields. -/
theorem Registry.fault_of_decode {r : Registry} {name : String} {values : List Value} {serial : Nat}
    {fault : Fault} (failed : r.decode name values serial = .error fault) :
    fault = .unknownType name ∨ ∃ reason, fault = .undecodable name reason := by
  unfold Registry.decode at failed
  split at failed
  · exact .inl (Except.error.inj failed).symm
  · split at failed
    · exact nomatch failed
    · exact .inr ⟨_, (Except.error.inj failed).symm⟩

end PeerScript
