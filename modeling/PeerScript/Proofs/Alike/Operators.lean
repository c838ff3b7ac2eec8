import PeerScript.Proofs.Alike

/-!
# Operators on values that look alike

An operator computes results that are alike from operands that are alike: arithmetic and comparison
see numbers and texts only, and equality does not tell paired names from each other.
-/

set_option autoImplicit false

namespace PeerScript.Operator

variable {hidden : String → Prop} {p : Pairing} {a a' b b' : Value}

theorem refuse_eq (operator : Operator) {vs ws : List Value} (h : Value.AllAlike hidden p vs ws) :
    operator.refuse vs = operator.refuse ws := by
  have names : vs.map Value.typeName = ws.map Value.typeName := by
    induction vs generalizing ws with
    | nil =>
        cases h
        rfl
    | cons v vs ih =>
        cases h with
        | cons first rest => rw [List.map_cons, List.map_cons, first.typeName_eq, ih rest]
  rw [refuse, refuse, names]

theorem exactly_flat {n : Int} {v : Value} (h : exactly n = .ok v) : v.Alike hidden p v := by
  unfold exactly at h
  split at h
  · cases h
    exact .int _
  · cases h

theorem integer_flat {operator : Operator} {x y : Int64} {v : Value}
    (h : integer operator x y = .ok v) : v.Alike hidden p v := by
  cases operator <;> simp only [integer, reduceCtorEq] at h
  case add | sub | mul => exact exactly_flat h
  case div =>
    split at h
    · cases h
    · exact exactly_flat h
  case rem =>
    split at h
    · cases h
    · split at h
      · exact exactly_flat h
      · cases h

theorem floating_flat {operator : Operator} {x y : Float} {v : Value}
    (h : floating operator x y = .ok v) : v.Alike hidden p v := by
  cases operator <;> simp only [floating, reduceCtorEq, Except.ok.injEq] at h
  all_goals
    subst h
    exact .float _

/-- Arithmetic sees the numbers that its operands are, and the types of what is no number. -/
theorem arithmetic_eq (operator : Operator) (a b : Value) :
    arithmetic operator a b =
      match a.int?, b.int? with
      | some x, some y => integer operator x y
      | _, _ =>
          match a.float?, b.float? with
          | some x, some y => floating operator x y
          | _, _ => .error (refuse operator [a, b]) := by
  cases a <;> cases b <;> rfl

theorem arithmetic_alike (operator : Operator) (h : a.Alike hidden p a') (k : b.Alike hidden p b') :
    Agree (Value.Alike hidden p) (arithmetic operator a b) (arithmetic operator a' b') := by
  refine Agree.of_eq ?_ fun v computed => ?_
  · rw [arithmetic_eq, arithmetic_eq, h.int?_eq, k.int?_eq, h.float?_eq, k.float?_eq,
      refuse_eq operator (.cons h (.cons k .nil))]
  · rw [arithmetic_eq] at computed
    split at computed
    · exact integer_flat computed
    · split at computed
      · exact floating_flat computed
      · cases computed

theorem sum_alike (h : a.Alike hidden p a') (k : b.Alike hidden p b') :
    Agree (Value.Alike hidden p) (sum a b) (sum a' b') := by
  have numbers := arithmetic_alike add h k
  cases h with
  | str s =>
      cases k with
      | str t => exact .ok (.str _)
      | _ => exact numbers
  | list items =>
      cases k with
      | list others => exact .ok (.list (items.append others))
      | _ => exact numbers
  | _ => cases k <;> exact numbers

theorem ordering?_eq (h : a.Alike hidden p a') (k : b.Alike hidden p b') :
    ordering? a b = ordering? a' b' := by
  cases h <;> cases k <;> rfl

theorem compare_alike (operator : Operator) (h : a.Alike hidden p a') (k : b.Alike hidden p b') :
    Agree (Value.Alike hidden p) (compare operator a b) (compare operator a' b') := by
  refine Agree.of_eq ?_ fun v computed => ?_
  · rw [compare, compare, ordering?_eq h k, refuse_eq operator (.cons h (.cons k .nil))]
  · unfold compare at computed
    split at computed
    · cases computed
    · cases computed
      exact .bool _
    · cases computed
      exact .bool _

theorem applyOne_alike (operator : Operator) (h : a.Alike hidden p a') :
    Agree (Value.Alike hidden p) (applyOne operator a) (applyOne operator a') := by
  cases operator
  case not =>
    rw [applyOne, applyOne, h.truthy_eq]
    exact .ok (.bool _)
  case neg =>
    have refused := refuse_eq neg (.cons h .nil)
    cases h with
    | int i => exact Agree.of_eq rfl fun v computed => exactly_flat computed
    | float x => exact .ok (.float _)
    | _ => exact Agree.of_eq (congrArg Except.error refused) fun v computed => nomatch computed
  all_goals exact .error _

theorem applyTwo_alike (one : p.IsOneToOne) (operator : Operator) (h : a.Alike hidden p a')
    (k : b.Alike hidden p b') :
    Agree (Value.Alike hidden p) (applyTwo operator a b) (applyTwo operator a' b') := by
  cases operator
  case and | or =>
    rw [applyTwo, applyTwo, h.truthy_eq, k.truthy_eq]
    exact .ok (.bool _)
  case eq | ne =>
    have same : (a == b) = (a' == b') := h.same_eq one k
    rw [applyTwo, applyTwo, same]
    exact .ok (.bool _)
  case lt | le | gt | ge => exact compare_alike _ h k
  case add => exact sum_alike h k
  case sub | mul | div | rem => exact arithmetic_alike _ h k
  case not => exact applyOne_alike not h
  case neg => exact applyOne_alike neg h

/-- Operators compute alike results from alike operands. -/
theorem apply_alike (one : p.IsOneToOne) (operator : Operator) {vs ws : List Value}
    (h : Value.AllAlike hidden p vs ws) :
    Agree (Value.Alike hidden p) (operator.apply vs) (operator.apply ws) := by
  unfold apply
  rw [h.length_eq]
  split
  · exact .error _
  · cases h with
    | nil => exact .error _
    | cons first rest =>
        cases rest with
        | nil => exact applyOne_alike operator first
        | cons second rest =>
            cases rest with
            | nil => exact applyTwo_alike one operator first second
            | cons _ _ => exact .error _

end PeerScript.Operator
