import Mathlib
import PeerScript.Machine.Eval

/-!
# Integer operators are exact

An operator on integers computes what the same operator computes on all integers, as long as 64 bits
hold the result; otherwise it fails, and never wraps.  `Yields` says this of a result that exists
for all operands.  A quotient and a remainder need a divisor, and there is one more point at which
they do not exist: the least integer divided by `-1`, whose quotient is one too large.  `Divides`
says what they are.
-/

set_option autoImplicit false

namespace PeerScript.Operator

/-! ## What 64 bits hold -/

/-- 64 bits hold the integer. -/
def Fits (n : Int) : Prop := -2 ^ 63 ≤ n ∧ n < 2 ^ 63

theorem fits_toInt (i : Int64) : Fits i.toInt := ⟨i.le_toInt, i.toInt_lt⟩

theorem inRange_iff {n : Int} : inRange n = true ↔ Fits n := by
  rw [inRange, Bool.and_eq_true, decide_eq_true_iff, decide_eq_true_iff]
  rfl

theorem toInt_ofInt_of_fits {n : Int} (fits : Fits n) : (Int64.ofInt n).toInt = n :=
  Int64.toInt_ofInt_of_le fits.1 fits.2

/-- The result is the integer, or an overflow if 64 bits do not hold it. -/
inductive Yields (n : Int) : Except Fault Value → Prop
  | exact (i : Int64) (same : i.toInt = n) : Yields n (.ok (.int i))
  | overflow (outside : ¬ Fits n) : Yields n (.error .overflow)

theorem exactly_of_fits {n : Int} (fits : Fits n) : exactly n = .ok (.int (Int64.ofInt n)) :=
  if_pos (inRange_iff.mpr fits)

theorem exactly_of_not_fits {n : Int} (outside : ¬ Fits n) : exactly n = .error .overflow :=
  if_neg fun inside => outside (inRange_iff.mp inside)

theorem exactly_yields (n : Int) : Yields n (exactly n) := by
  by_cases fits : Fits n
  · rw [exactly_of_fits fits]
    exact .exact _ (toInt_ofInt_of_fits fits)
  · rw [exactly_of_not_fits fits]
    exact .overflow fits

/-! ## Division -/

/-- A divisor other than `1` and `-1` at least halves the dividend, and `-1` turns it round. -/
theorem fits_tdiv_iff {a b : Int} (fits : Fits a) (divisor : b ≠ 0) :
    Fits (a.tdiv b) ↔ ¬ (a = -2 ^ 63 ∧ b = -1) := by
  obtain ⟨least, most⟩ := fits
  constructor
  · rintro ⟨-, less⟩ ⟨rfl, rfl⟩
    exact absurd less (by decide)
  · intro other
    by_cases unit : b.natAbs = 1
    · rcases Int.natAbs_eq_iff.mp unit with rfl | rfl
      · rw [Int.ofNat_one, Int.tdiv_one]
        exact ⟨least, most⟩
      · rw [Int.ofNat_one, Int.tdiv_neg, Int.tdiv_one]
        constructor <;> omega
    · have parts : (a.tdiv b).natAbs = a.natAbs / b.natAbs := Int.natAbs_tdiv a b
      have halved : a.natAbs / b.natAbs ≤ a.natAbs / 2 := Nat.div_le_div_left (by omega) (by decide)
      constructor <;> omega

/-- A remainder is smaller than the divisor. -/
theorem natAbs_tmod_lt (a : Int) {b : Int} (divisor : b ≠ 0) : (a.tmod b).natAbs < b.natAbs := by
  rw [Int.natAbs_tmod]
  exact Nat.mod_lt _ (Int.natAbs_pos.mpr divisor)

theorem fits_tmod {a b : Int} (fits : Fits b) (divisor : b ≠ 0) : Fits (a.tmod b) := by
  have less := natAbs_tmod_lt a divisor
  obtain ⟨least, most⟩ := fits
  constructor <;> omega

/-- What the quotient and the remainder of two integers are.  They fail for the same operands and
for no others than those named here. -/
structure Divides (a b : Int64) (quotient remainder : Except Fault Value) : Prop where
  quotient_by_zero : quotient = .error .divisionByZero ↔ b = 0
  remainder_by_zero : remainder = .error .divisionByZero ↔ b = 0
  quotient_overflow : quotient = .error .overflow ↔ a = Int64.minValue ∧ b = -1
  remainder_overflow : remainder = .error .overflow ↔ a = Int64.minValue ∧ b = -1
  exact : b ≠ 0 → ¬ (a = Int64.minValue ∧ b = -1) → ∃ q r : Int64,
    quotient = .ok (.int q) ∧ remainder = .ok (.int r) ∧
      a.toInt = q.toInt * b.toInt + r.toInt ∧ |r.toInt| < |b.toInt| ∧
        (r = 0 ∨ r.toInt.sign = a.toInt.sign)

theorem toInt_ne_zero {b : Int64} (divisor : b ≠ 0) : b.toInt ≠ 0 :=
  fun zero => divisor ((Int64.toInt_inj (y := 0)).mp zero)

/-- There is one quotient of 64-bit integers that 64 bits do not hold. -/
theorem fits_quotient_iff {a b : Int64} (divisor : b ≠ 0) :
    Fits (a.toInt.tdiv b.toInt) ↔ ¬ (a = Int64.minValue ∧ b = -1) := by
  have least : a.toInt = -2 ^ 63 ↔ a = Int64.minValue := by
    rw [← Int64.toInt_minValue, Int64.toInt_inj]
  have unit : b.toInt = -1 ↔ b = -1 := Int64.toInt_inj (y := -1)
  rw [fits_tdiv_iff (fits_toInt a) (toInt_ne_zero divisor), least, unit]

theorem integer_div_zero (a : Int64) : integer div a 0 = .error .divisionByZero := rfl

theorem integer_rem_zero (a : Int64) : integer rem a 0 = .error .divisionByZero := rfl

/-- Behind the check of the divisor, the only way to fail is the one quotient that is too large. -/
theorem integer_div {a b : Int64} (divisor : b ≠ 0) : integer div a b =
    if a = Int64.minValue ∧ b = -1 then .error .overflow
    else .ok (.int (Int64.ofInt (a.toInt.tdiv b.toInt))) := by
  have divided : integer div a b = exactly (a.toInt.tdiv b.toInt) := if_neg (toInt_ne_zero divisor)
  rw [divided]
  split
  · rename_i corner
    exact exactly_of_not_fits fun inside => (fits_quotient_iff divisor).mp inside corner
  · rename_i other
    exact exactly_of_fits ((fits_quotient_iff divisor).mpr other)

/-- The remainder fails where the quotient does, although it would be zero there. -/
theorem integer_rem {a b : Int64} (divisor : b ≠ 0) : integer rem a b =
    if a = Int64.minValue ∧ b = -1 then .error .overflow
    else .ok (.int (Int64.ofInt (a.toInt.tmod b.toInt))) := by
  have divided : integer rem a b =
      if inRange (a.toInt.tdiv b.toInt) then exactly (a.toInt.tmod b.toInt) else .error .overflow :=
    if_neg (toInt_ne_zero divisor)
  rw [divided]
  by_cases corner : a = Int64.minValue ∧ b = -1
  · rw [if_pos corner]
    exact if_neg fun inside => (fits_quotient_iff divisor).mp (inRange_iff.mp inside) corner
  · rw [if_neg corner, if_pos (inRange_iff.mpr ((fits_quotient_iff divisor).mpr corner))]
    exact exactly_of_fits (fits_tmod (fits_toInt b) (toInt_ne_zero divisor))

theorem divides (a b : Int64) : Divides a b (integer div a b) (integer rem a b) := by
  by_cases zero : b = 0
  · subst zero
    have noCorner : ¬ (a = Int64.minValue ∧ (0 : Int64) = -1) :=
      fun both => absurd both.2 (by decide)
    rw [integer_div_zero, integer_rem_zero]
    exact ⟨iff_of_true rfl rfl, iff_of_true rfl rfl, iff_of_false nofun noCorner,
      iff_of_false nofun noCorner, fun divisor => absurd rfl divisor⟩
  rw [integer_div zero, integer_rem zero]
  by_cases corner : a = Int64.minValue ∧ b = -1
  · rw [if_pos corner, if_pos corner]
    exact ⟨iff_of_false nofun zero, iff_of_false nofun zero, iff_of_true rfl corner,
      iff_of_true rfl corner, fun _ other => absurd corner other⟩
  rw [if_neg corner, if_neg corner]
  refine ⟨iff_of_false nofun zero, iff_of_false nofun zero, iff_of_false nofun corner,
    iff_of_false nofun corner, fun _ _ => ⟨_, _, rfl, rfl, ?_⟩⟩
  have quotient : (Int64.ofInt (a.toInt.tdiv b.toInt)).toInt = a.toInt.tdiv b.toInt :=
    toInt_ofInt_of_fits ((fits_quotient_iff zero).mpr corner)
  have remainder : (Int64.ofInt (a.toInt.tmod b.toInt)).toInt = a.toInt.tmod b.toInt :=
    toInt_ofInt_of_fits (fits_tmod (fits_toInt b) (toInt_ne_zero zero))
  rw [quotient, remainder]
  refine ⟨?_, ?_, ?_⟩
  · rw [Int.mul_comm]
    exact (Int.mul_tdiv_add_tmod a.toInt b.toInt).symm
  · rw [Int.abs_eq_natAbs, Int.abs_eq_natAbs]
    exact_mod_cast natAbs_tmod_lt a.toInt (toInt_ne_zero zero)
  · rw [Int.sign_tmod]
    split
    · rename_i divides
      rw [Int.tmod_eq_zero_of_dvd divides]
      exact .inl rfl
    · exact .inr rfl

/-! ## Comparison -/

section Order

variable {α : Type} [LinearOrder α] (a b : α)

/-- The order of two elements tells which of the three cases is so. -/
theorem order_cases : (a < b ∧ order a b = .lt) ∨ (b < a ∧ order a b = .gt) ∨
    (a = b ∧ order a b = .eq) := by
  unfold order
  rcases lt_trichotomy a b with less | rfl | greater
  · exact .inl ⟨less, if_pos less⟩
  · rw [if_neg (lt_irrefl a), if_neg (lt_irrefl a)]
    exact .inr (.inr ⟨rfl, rfl⟩)
  · rw [if_neg greater.not_gt, if_pos greater]
    exact .inr (.inl ⟨greater, rfl⟩)

theorem admits_lt : lt.admits (order a b) = decide (a < b) := by
  rcases order_cases a b with ⟨less, found⟩ | ⟨greater, found⟩ | ⟨rfl, found⟩ <;> rw [found]
  · exact (decide_eq_true less).symm
  · exact (decide_eq_false greater.not_gt).symm
  · exact (decide_eq_false (lt_irrefl a)).symm

theorem admits_gt : gt.admits (order a b) = decide (b < a) := by
  rcases order_cases a b with ⟨less, found⟩ | ⟨greater, found⟩ | ⟨rfl, found⟩ <;> rw [found]
  · exact (decide_eq_false less.not_gt).symm
  · exact (decide_eq_true greater).symm
  · exact (decide_eq_false (lt_irrefl a)).symm

theorem admits_le : le.admits (order a b) = decide (a ≤ b) := by
  have opposite : le.admits (order a b) = !gt.admits (order a b) := rfl
  rw [opposite, admits_gt, ← decide_not, decide_eq_decide, not_lt]

theorem admits_ge : ge.admits (order a b) = decide (b ≤ a) := by
  have opposite : ge.admits (order a b) = !lt.admits (order a b) := rfl
  rw [opposite, admits_lt, ← decide_not, decide_eq_decide, not_lt]

/-- Values that have an order compare as this order says. -/
theorem compare_of_ordering {o : Operator} {v w : Value} {a b : α}
    (ordered : ordering? v w = some (some (order a b))) :
    compare o v w = .ok (.bool (o.admits (order a b))) := by
  rw [compare, ordered]

end Order

/-- Comparisons of integers are those of the order of all integers. -/
theorem compare_integers (a b : Int64) :
    lt.apply [.int a, .int b] = .ok (.bool (decide (a.toInt < b.toInt))) ∧
    le.apply [.int a, .int b] = .ok (.bool (decide (a.toInt ≤ b.toInt))) ∧
    gt.apply [.int a, .int b] = .ok (.bool (decide (a.toInt > b.toInt))) ∧
    ge.apply [.int a, .int b] = .ok (.bool (decide (a.toInt ≥ b.toInt))) ∧
    eq.apply [.int a, .int b] = .ok (.bool (decide (a.toInt = b.toInt))) ∧
    ne.apply [.int a, .int b] = .ok (.bool (decide (a.toInt ≠ b.toInt))) := by
  have compared : ∀ {o : Operator} {t : Bool}, o.admits (order a.toInt b.toInt) = t →
      compare o (.int a) (.int b) = .ok (.bool t) := by
    rintro o t rfl
    exact compare_of_ordering rfl
  have same : (Value.int a == .int b) = decide (a.toInt = b.toInt) := by
    change Value.same (.int a) (.int b) = _
    rw [Value.same, beq_eq_decide, decide_eq_decide, Int64.toInt_inj]
  refine ⟨compared (admits_lt ..), compared (admits_le ..), compared (admits_gt ..),
    compared (admits_ge ..), ?_, ?_⟩
  · rw [← same]
    rfl
  · rw [decide_not, ← same]
    rfl

/-! ## All operators -/

/-- A result that is an integer, a truth value or a fault, and no floating point number. -/
inductive Whole : Except Fault Value → Prop
  | int (n : Int64) : Whole (.ok (.int n))
  | bool (b : Bool) : Whole (.ok (.bool b))
  | fault (f : Fault) : Whole (.error f)

theorem whole_exactly (n : Int) : Whole (exactly n) := by
  unfold exactly
  split
  · exact .int _
  · exact .fault _

theorem whole_integer (o : Operator) (a b : Int64) : Whole (integer o a b) := by
  by_cases zero : b = 0
  · subst zero
    cases o
    case add | sub | mul => exact whole_exactly _
    all_goals exact .fault _
  · cases o
    case add | sub | mul => exact whole_exactly _
    case div =>
      rw [integer_div zero]
      split
      · exact .fault _
      · exact .int _
    case rem =>
      rw [integer_rem zero]
      split
      · exact .fault _
      · exact .int _
    all_goals exact .fault _

/-- What an operator computes from integers is no floating point number. -/
theorem whole_apply (o : Operator) (ns : List Int64) : Whole (o.apply (ns.map .int)) := by
  unfold apply
  split
  · exact .fault _
  · match ns with
    | [] | _ :: _ :: _ :: _ => exact .fault _
    | [a] =>
        cases o
        case neg => exact whole_exactly _
        case not => exact .bool _
        all_goals exact .fault _
    | [a, b] =>
        cases o
        case add => exact whole_integer add a b
        case sub => exact whole_integer sub a b
        case mul => exact whole_integer mul a b
        case div => exact whole_integer div a b
        case rem => exact whole_integer rem a b
        case neg => exact whole_exactly _
        all_goals exact .bool _

/-- An operator that a run comes to pushes its result, or fails; it does not break the run. -/
theorem dispatch_op {σ : Type} (host : Host σ) (inside : Option (Inside σ)) (o : Operator)
    (values : List Value) (scope : FrameId) (m : Machine σ) :
    dispatch host inside (.op o) values scope m =
      match o.apply values with
      | .ok v => .ok () (m.push v)
      | .error fault => .error (.failed fault) m := by
  have step : dispatch host inside (.op o) values scope m =
    (Run.ofExcept (o.apply values) >>= Run.push : Run σ Unit) m := rfl
  rw [step]
  cases o.apply values <;> rfl

/-- Operators on integers are exact.  Sums, differences, products and negations are those of all
integers, or an overflow if 64 bits do not hold them; quotients and remainders are as `Divides`
says; comparisons are those of the order of all integers.  Whatever the operator and however many
integers there are, a run goes on with an integer or a truth value on its stack, or fails, and it
does nothing else. -/
theorem integers_exact {σ : Type} (host : Host σ) (inside : Option (Inside σ)) (scope : FrameId)
    (m : Machine σ) (a b : Int64) :
    Yields (a.toInt + b.toInt) (add.apply [.int a, .int b]) ∧
    Yields (a.toInt - b.toInt) (sub.apply [.int a, .int b]) ∧
    Yields (a.toInt * b.toInt) (mul.apply [.int a, .int b]) ∧
    Yields (-a.toInt) (neg.apply [.int a]) ∧
    Divides a b (div.apply [.int a, .int b]) (rem.apply [.int a, .int b]) ∧
    (lt.apply [.int a, .int b] = .ok (.bool (decide (a.toInt < b.toInt))) ∧
      le.apply [.int a, .int b] = .ok (.bool (decide (a.toInt ≤ b.toInt))) ∧
      gt.apply [.int a, .int b] = .ok (.bool (decide (a.toInt > b.toInt))) ∧
      ge.apply [.int a, .int b] = .ok (.bool (decide (a.toInt ≥ b.toInt))) ∧
      eq.apply [.int a, .int b] = .ok (.bool (decide (a.toInt = b.toInt))) ∧
      ne.apply [.int a, .int b] = .ok (.bool (decide (a.toInt ≠ b.toInt)))) ∧
    ∀ (o : Operator) (ns : List Int64), Whole (o.apply (ns.map .int)) ∧
      ((∃ v, o.apply (ns.map .int) = .ok v ∧
          dispatch host inside (.op o) (ns.map .int) scope m = .ok () (m.push v)) ∨
        ∃ fault, o.apply (ns.map .int) = .error fault ∧
          dispatch host inside (.op o) (ns.map .int) scope m = .error (.failed fault) m) := by
  refine ⟨exactly_yields _, exactly_yields _, exactly_yields _, exactly_yields _, divides a b,
    compare_integers a b, fun o ns => ⟨whole_apply o ns, ?_⟩⟩
  rw [dispatch_op]
  cases o.apply (ns.map .int) with
  | ok v => exact .inl ⟨v, rfl, rfl⟩
  | error fault => exact .inr ⟨fault, rfl, rfl⟩

end PeerScript.Operator
