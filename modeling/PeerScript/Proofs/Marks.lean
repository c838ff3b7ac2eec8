import PeerScript.Operator.Apply
import PeerScript.Proofs.Frames

/-!
# Marks

Two things are made by a run and from then on only copied: the home of a function, when a literal is
run in a frame, and the number of an instance, when it is constructed.  Both are `Mark`s of a value.
Operators and builtins compute values whose marks are those of their operands, so a mark that nobody
has can only come from where it is made.

A function in the body of another function has no home yet: it gets one when the body runs.  If its
literal has a home all the same, that one is an `inner` mark of the whole.
-/

set_option autoImplicit false

namespace PeerScript

/-- What a value carries that is made once and then copied. -/
inductive Mark where
  /-- a function was made in the frame -/
  | home (f : FrameId)
  /-- a function was made in the frame and stands in the body of another one -/
  | inner (f : FrameId)
  /-- an instance has the number -/
  | serial (n : Nat)
  deriving DecidableEq

/-- What a mark of a tree is to a function with that tree as its body. -/
def Mark.within : Mark → Mark
  | home f => inner f
  | inner f => inner f
  | serial n => serial n

mutual

/-- The marks of a value. -/
def Value.marks : Value → List Mark
  | .list items => Value.marksAll items
  | .closure _ body home => home.toList.map .home ++ body.marks.map .within
  | .handle _ n fields => .serial n :: Value.marksAll fields
  | _ => []

/-- The marks of values. -/
def Value.marksAll : List Value → List Mark
  | [] => []
  | v :: rest => v.marks ++ Value.marksAll rest

/-- The marks of the literals of a tree. -/
def Tree.marks : Tree → List Mark
  | .literal v => v.marks
  | .reference _ => []
  | .call _ args => Tree.marksAll args

/-- The marks of the literals of trees. -/
def Tree.marksAll : List Tree → List Mark
  | [] => []
  | t :: rest => t.marks ++ Tree.marksAll rest

end

namespace Value

theorem mem_marksAll {μ : Mark} {vs : List Value} : μ ∈ marksAll vs ↔ ∃ v ∈ vs, μ ∈ v.marks := by
  induction vs with
  | nil => simp [marksAll]
  | cons v vs ih => simp [marksAll, ih]

theorem marksAll_append (vs ws : List Value) :
    marksAll (vs ++ ws) = marksAll vs ++ marksAll ws := by
  induction vs with
  | nil => rfl
  | cons v vs ih => rw [List.cons_append, marksAll, ih, marksAll, List.append_assoc]

theorem marksAll_subset {vs ws : List Value} (h : vs ⊆ ws) : marksAll vs ⊆ marksAll ws := by
  intro μ mem
  obtain ⟨v, among, mem⟩ := mem_marksAll.mp mem
  exact mem_marksAll.mpr ⟨v, h among, mem⟩

theorem marks_subset {v : Value} {vs : List Value} (h : v ∈ vs) : v.marks ⊆ marksAll vs :=
  fun _ mem => mem_marksAll.mpr ⟨v, h, mem⟩

end Value

/-! ## Homes -/

theorem Mark.home_ne_within (f : FrameId) (μ : Mark) : Mark.home f ≠ μ.within := by
  cases μ <;> nofun

theorem Mark.inner_eq_within {f : FrameId} {μ : Mark} :
    Mark.inner f = μ.within ↔ μ = .home f ∨ μ = .inner f := by
  cases μ <;> simp [Mark.within, eq_comm]

mutual

/-- The homes of the functions in a value are marks of it. -/
theorem Value.mem_homes {f : FrameId} :
    ∀ {v : Value}, f ∈ v.homes ↔ .home f ∈ v.marks ∨ .inner f ∈ v.marks
  | .bool _ | .int _ | .float _ | .str _ | .native _ | .object _ => by
      simp [Value.homes, Value.marks]
  | .list items => by
      rw [Value.homes, Value.marks]
      exact Value.mem_homesAll
  | .handle _ _ fields => by
      rw [Value.homes, Value.marks, List.mem_cons, List.mem_cons]
      simpa using @Value.mem_homesAll f fields
  | .closure _ body home => by
      have inside := Tree.mem_homes (f := f) (t := body)
      have own : f ∈ home.toList ↔ Mark.home f ∈ home.toList.map .home := by simp
      have never : Mark.inner f ∉ home.toList.map .home := by simp
      have outer : Mark.home f ∉ body.marks.map .within := by
        simpa [eq_comm] using fun μ _ => Mark.home_ne_within f μ
      have inner : Mark.inner f ∈ body.marks.map .within ↔
          .home f ∈ body.marks ∨ .inner f ∈ body.marks := by
        rw [List.mem_map]
        constructor
        · rintro ⟨μ, mem, same⟩
          rcases Mark.inner_eq_within.mp same.symm with rfl | rfl
          · exact .inl mem
          · exact .inr mem
        · rintro (mem | mem)
          · exact ⟨_, mem, rfl⟩
          · exact ⟨_, mem, rfl⟩
      rw [Value.homes, Value.marks, List.mem_append, List.mem_append, List.mem_append, own, inside,
        inner]
      simp only [outer, never, or_false, false_or]
termination_by structural v => v

theorem Value.mem_homesAll {f : FrameId} : ∀ {vs : List Value},
    f ∈ Value.homesAll vs ↔ .home f ∈ Value.marksAll vs ∨ .inner f ∈ Value.marksAll vs
  | [] => by simp [Value.homesAll, Value.marksAll]
  | v :: rest => by
      rw [Value.homesAll, Value.marksAll, List.mem_append, List.mem_append, List.mem_append,
        Value.mem_homes (v := v), @Value.mem_homesAll f rest, or_or_or_comm]
termination_by structural vs => vs

theorem Tree.mem_homes {f : FrameId} :
    ∀ {t : Tree}, f ∈ t.homes ↔ .home f ∈ t.marks ∨ .inner f ∈ t.marks
  | .literal v => by
      rw [Tree.homes, Tree.marks]
      exact Value.mem_homes
  | .reference _ => by simp [Tree.homes, Tree.marks]
  | .call _ args => by
      rw [Tree.homes, Tree.marks]
      exact Tree.mem_homesAll
termination_by structural t => t

theorem Tree.mem_homesAll {f : FrameId} : ∀ {ts : List Tree},
    f ∈ Tree.homesAll ts ↔ .home f ∈ Tree.marksAll ts ∨ .inner f ∈ Tree.marksAll ts
  | [] => by simp [Tree.homesAll, Tree.marksAll]
  | t :: rest => by
      rw [Tree.homesAll, Tree.marksAll, List.mem_append, List.mem_append, List.mem_append,
        Tree.mem_homes (t := t), @Tree.mem_homesAll f rest, or_or_or_comm]
termination_by structural ts => ts

end

/-! ## Operators -/

namespace Operator

variable {operator : Operator} {a b v : Value}

theorem exactly_marks {n : Int} (h : exactly n = .ok v) : v.marks = [] := by
  unfold exactly at h
  split at h <;> cases h
  rfl

theorem integer_marks {x y : Int64} (h : integer operator x y = .ok v) : v.marks = [] := by
  cases operator <;> simp only [integer, reduceCtorEq] at h
  case add | sub | mul => exact exactly_marks h
  case div =>
    split at h
    · cases h
    · exact exactly_marks h
  case rem =>
    split at h
    · cases h
    · split at h
      · exact exactly_marks h
      · cases h

theorem floating_marks {x y : Float} (h : floating operator x y = .ok v) : v.marks = [] := by
  cases operator <;> simp only [floating, reduceCtorEq, Except.ok.injEq] at h
  all_goals
    subst h
    rfl

theorem arithmetic_marks (h : arithmetic operator a b = .ok v) : v.marks = [] := by
  unfold arithmetic at h
  split at h
  · exact integer_marks h
  · split at h
    · exact floating_marks h
    · cases h

theorem compare_marks (h : compare operator a b = .ok v) : v.marks = [] := by
  unfold compare at h
  split at h <;> cases h <;> rfl

theorem sum_marks (h : sum a b = .ok v) : v.marks ⊆ a.marks ++ b.marks := by
  unfold sum at h
  split at h
  · cases h
    exact List.nil_subset _
  · cases h
    rw [Value.marks, Value.marks, Value.marks, Value.marksAll_append]
    exact fun _ mem => mem
  · rw [arithmetic_marks h]
    exact List.nil_subset _

theorem applyOne_marks (h : applyOne operator a = .ok v) : v.marks = [] := by
  unfold applyOne at h
  split at h
  · cases h
    rfl
  · exact exactly_marks h
  · cases h
    rfl
  · cases h
  · cases h

theorem applyTwo_marks (h : applyTwo operator a b = .ok v) : v.marks ⊆ a.marks ++ b.marks := by
  have plain : v.marks = [] → v.marks ⊆ a.marks ++ b.marks := fun none => by
    rw [none]
    exact List.nil_subset _
  cases operator <;> simp only [applyTwo, Except.ok.injEq] at h
  case add => exact sum_marks h
  case lt | le | gt | ge => exact plain (compare_marks h)
  case sub | mul | div | rem => exact plain (arithmetic_marks h)
  case not | neg => exact plain (applyOne_marks h)
  all_goals
    subst h
    exact plain rfl

/-- An operator makes no marks. -/
theorem apply_marks {operands : List Value} (h : operator.apply operands = .ok v) :
    v.marks ⊆ Value.marksAll operands := by
  unfold apply at h
  split at h
  · cases h
  · split at h
    · rw [applyOne_marks h]
      exact List.nil_subset _
    · refine List.Subset.trans (applyTwo_marks h) ?_
      simp [Value.marksAll]
    · cases h

end Operator

/-! ## Stores -/

namespace Store

/-- The marks of what a frame binds. -/
def marked (s : Store) (f : FrameId) : List Mark := Value.marksAll ((s.bindings f).map (·.2))

theorem mem_bound {s : Store} {f g : FrameId} :
    g ∈ s.bound f ↔ .home g ∈ s.marked f ∨ .inner g ∈ s.marked f := Value.mem_homesAll

/-- A mark of what is bound in the frames that the given handles keep alive. -/
def Knows (s : Store) (owners : List FrameId) (μ : Mark) : Prop :=
  ∃ o ∈ owners, ∃ f ∈ s.chain o, μ ∈ s.marked f

theorem mem_homes {s : Store} {owners : List FrameId} {g : FrameId} :
    g ∈ s.homes owners ↔ s.Knows owners (.home g) ∨ s.Knows owners (.inner g) := by
  rw [homes, List.mem_flatMap]
  constructor
  · rintro ⟨f, mem, bound⟩
    obtain ⟨o, owns, mem⟩ := List.mem_flatMap.mp mem
    exact (mem_bound.mp bound).imp (fun marked => ⟨o, owns, f, mem, marked⟩)
      fun marked => ⟨o, owns, f, mem, marked⟩
  · rintro (⟨o, owns, f, mem, marked⟩ | ⟨o, owns, f, mem, marked⟩)
    · exact ⟨f, List.mem_flatMap.mpr ⟨o, owns, mem⟩, mem_bound.mpr (.inl marked)⟩
    · exact ⟨f, List.mem_flatMap.mpr ⟨o, owns, mem⟩, mem_bound.mpr (.inr marked)⟩

end Store

end PeerScript
