import Mathlib.Data.List.Forall2
import PeerScript.Operator.Apply
import PeerScript.Session

/-!
# Values that look alike

Two runs of the same scripts name their frames and number their instances differently when other
scripts run in between.  A `Pairing` says which frame of one run plays the part of which frame of
the other, and likewise for serial numbers.  Values are `Alike` when they differ in paired names
only; an object is alike to nothing, and neither is a tree that uses one of some hidden names.

What scripts can learn of a value is the same for values that are alike: its type, its truth, its
written form, and, as the pairing is one to one, which values it equals.
-/

set_option autoImplicit false

namespace PeerScript

/-! ## Pairings -/

/-- Which frames, and which serial numbers, of two runs play the same part. -/
structure Pairing where
  frames : FrameId → FrameId → Prop
  serials : Nat → Nat → Prop

namespace Pairing

instance : LE Pairing where
  le p q := (∀ f g, p.frames f g → q.frames f g) ∧ ∀ s t, p.serials s t → q.serials s t

theorem le_refl (p : Pairing) : p ≤ p := ⟨fun _ _ h => h, fun _ _ h => h⟩

theorem le_trans {p q r : Pairing} (h : p ≤ q) (k : q ≤ r) : p ≤ r :=
  ⟨fun f g pair => k.1 f g (h.1 f g pair), fun s t pair => k.2 s t (h.2 s t pair)⟩

/-- Nothing has two partners, on either side. -/
structure IsOneToOne (p : Pairing) : Prop where
  frame_left : ∀ {f f' g}, p.frames f g → p.frames f' g → f = f'
  frame_right : ∀ {f g g'}, p.frames f g → p.frames f g' → g = g'
  serial_left : ∀ {s s' t}, p.serials s t → p.serials s' t → s = s'
  serial_right : ∀ {s t t'}, p.serials s t → p.serials s t' → t = t'

/-- Nothing is paired yet. -/
def nothing : Pairing := ⟨fun _ _ => False, fun _ _ => False⟩

theorem nothing_isOneToOne : nothing.IsOneToOne :=
  ⟨False.elim, False.elim, False.elim, False.elim⟩

/-- The pairing with one more pair of frames. -/
def withFrames (p : Pairing) (f g : FrameId) : Pairing :=
  { p with frames := fun f' g' => p.frames f' g' ∨ (f' = f ∧ g' = g) }

/-- The pairing with one more pair of serial numbers. -/
def withSerials (p : Pairing) (s t : Nat) : Pairing :=
  { p with serials := fun s' t' => p.serials s' t' ∨ (s' = s ∧ t' = t) }

theorem le_withFrames (p : Pairing) (f g : FrameId) : p ≤ p.withFrames f g :=
  ⟨fun _ _ h => .inl h, fun _ _ h => h⟩

theorem le_withSerials (p : Pairing) (s t : Nat) : p ≤ p.withSerials s t :=
  ⟨fun _ _ h => h, fun _ _ h => .inl h⟩

theorem IsOneToOne.withFrames {p : Pairing} (h : p.IsOneToOne) {f g : FrameId}
    (left : ∀ g', ¬ p.frames f g') (right : ∀ f', ¬ p.frames f' g) :
    (p.withFrames f g).IsOneToOne where
  frame_left := by
    rintro f₁ f₂ g' (k | ⟨rfl, rfl⟩) (l | ⟨rfl, same⟩)
    · exact h.frame_left k l
    · exact absurd (same ▸ k) (right _)
    · exact absurd l (right _)
    · rfl
  frame_right := by
    rintro f' g₁ g₂ (k | ⟨rfl, rfl⟩) (l | ⟨same, rfl⟩)
    · exact h.frame_right k l
    · exact absurd (same ▸ k) (left _)
    · exact absurd l (left _)
    · rfl
  serial_left := h.serial_left
  serial_right := h.serial_right

/-- The paired serial numbers are less than the given ones. -/
def Below (p : Pairing) (s t : Nat) : Prop := ∀ s' t', p.serials s' t' → s' < s ∧ t' < t

theorem nothing_below (s t : Nat) : nothing.Below s t := fun _ _ => False.elim

theorem Below.withSerials {p : Pairing} {s t : Nat} (h : p.Below s t) :
    (p.withSerials s t).Below (s + 1) (t + 1) := by
  rintro s' t' (paired | ⟨rfl, rfl⟩)
  · exact ⟨Nat.lt_succ_of_lt (h s' t' paired).1, Nat.lt_succ_of_lt (h s' t' paired).2⟩
  · exact ⟨Nat.lt_succ_self s', Nat.lt_succ_self t'⟩

theorem IsOneToOne.withSerials {p : Pairing} (h : p.IsOneToOne) {s t : Nat} (below : p.Below s t) :
    (p.withSerials s t).IsOneToOne where
  frame_left := h.frame_left
  frame_right := h.frame_right
  serial_left := by
    rintro s₁ s₂ t' (k | ⟨rfl, rfl⟩) (l | ⟨rfl, same⟩)
    · exact h.serial_left k l
    · exact absurd (below _ _ (same ▸ k)).2 (Nat.lt_irrefl _)
    · exact absurd (below _ _ l).2 (Nat.lt_irrefl _)
    · rfl
  serial_right := by
    rintro s' t₁ t₂ (k | ⟨rfl, rfl⟩) (l | ⟨same, rfl⟩)
    · exact h.serial_right k l
    · exact absurd (below _ _ (same ▸ k)).1 (Nat.lt_irrefl _)
    · exact absurd (below _ _ l).1 (Nat.lt_irrefl _)
    · rfl

theorem exists_right {p : Pairing} {fs gs : List FrameId} (h : List.Forall₂ p.frames fs gs)
    {f : FrameId} (mem : f ∈ fs) : ∃ g, p.frames f g := by
  induction h with
  | nil => exact nomatch mem
  | cons first _ ih =>
      rcases List.mem_cons.mp mem with rfl | mem
      · exact ⟨_, first⟩
      · exact ih mem

end Pairing

/-! ## Values and trees -/

section Alike

variable (hidden : String → Prop) (p : Pairing)

/-- Homes in paired frames, or none. -/
inductive HomesAlike : Option FrameId → Option FrameId → Prop
  | none : HomesAlike none none
  | some {f g : FrameId} : p.frames f g → HomesAlike (some f) (some g)

mutual

/-- Values that differ in paired names only. -/
inductive Value.Alike : Value → Value → Prop
  | bool (b : Bool) : Value.Alike (.bool b) (.bool b)
  | int (i : Int64) : Value.Alike (.int i) (.int i)
  | float (x : Float) : Value.Alike (.float x) (.float x)
  | str (s : String) : Value.Alike (.str s) (.str s)
  | list {vs ws : List Value} : Value.AllAlike vs ws → Value.Alike (.list vs) (.list ws)
  | closure {params : List String} {t u : Tree} {home home' : Option FrameId} :
      Tree.Alike t u → HomesAlike p home home' →
      Value.Alike (.closure params t home) (.closure params u home')
  | native (b : Builtin) : Value.Alike (.native b) (.native b)
  | handle {kind : Kind} {s t : Nat} {vs ws : List Value} :
      p.serials s t → Value.AllAlike vs ws → Value.Alike (.handle kind s vs) (.handle kind t ws)

/-- Lists of values that are alike one by one. -/
inductive Value.AllAlike : List Value → List Value → Prop
  | nil : Value.AllAlike [] []
  | cons {v w : Value} {vs ws : List Value} :
      Value.Alike v w → Value.AllAlike vs ws → Value.AllAlike (v :: vs) (w :: ws)

/-- Trees without hidden names that differ in paired names only. -/
inductive Tree.Alike : Tree → Tree → Prop
  | literal {v w : Value} : Value.Alike v w → Tree.Alike (.literal v) (.literal w)
  | reference {path : Path} : ¬ hidden path.root → Tree.Alike (.reference path) (.reference path)
  | call {head : Head} {ts us : List Tree} : (∀ path, head = .invoke path → ¬ hidden path.root) →
      Tree.AllAlike ts us → Tree.Alike (.call head ts) (.call head us)

/-- Lists of trees that are alike one by one. -/
inductive Tree.AllAlike : List Tree → List Tree → Prop
  | nil : Tree.AllAlike [] []
  | cons {t u : Tree} {ts us : List Tree} :
      Tree.Alike t u → Tree.AllAlike ts us → Tree.AllAlike (t :: ts) (u :: us)

end

end Alike

variable {hidden : String → Prop} {p q : Pairing}

theorem HomesAlike.mono (le : p ≤ q) {home home' : Option FrameId} (h : HomesAlike p home home') :
    HomesAlike q home home' := by
  cases h with
  | none => exact .none
  | some paired => exact .some (le.1 _ _ paired)

mutual

theorem Value.Alike.mono (le : p ≤ q) : ∀ {v w : Value}, v.Alike hidden p w → v.Alike hidden q w
  | .bool _, _, h | .int _, _, h | .float _, _, h | .str _, _, h | .native _, _, h => by
      cases h
      constructor
  | .list _, _, h => by
      cases h with
      | list items => exact .list (items.mono le)
  | .closure .., _, h => by
      cases h with
      | closure body home => exact .closure (body.mono le) (home.mono le)
  | .handle .., _, h => by
      cases h with
      | handle paired fields => exact .handle (le.2 _ _ paired) (fields.mono le)
  | .object _, _, h => nomatch h
termination_by structural v => v

theorem Value.AllAlike.mono (le : p ≤ q) :
    ∀ {vs ws : List Value}, Value.AllAlike hidden p vs ws → Value.AllAlike hidden q vs ws
  | [], _, h => by
      cases h
      exact .nil
  | _ :: _, _, h => by
      cases h with
      | cons first rest => exact .cons (first.mono le) (rest.mono le)
termination_by structural vs => vs

theorem Tree.Alike.mono (le : p ≤ q) : ∀ {t u : Tree}, t.Alike hidden p u → t.Alike hidden q u
  | .literal _, _, h => by
      cases h with
      | literal value => exact .literal (value.mono le)
  | .reference _, _, h => by
      cases h with
      | reference plain => exact .reference plain
  | .call .., _, h => by
      cases h with
      | call plain args => exact .call plain (args.mono le)
termination_by structural t => t

theorem Tree.AllAlike.mono (le : p ≤ q) :
    ∀ {ts us : List Tree}, Tree.AllAlike hidden p ts us → Tree.AllAlike hidden q ts us
  | [], _, h => by
      cases h
      exact .nil
  | _ :: _, _, h => by
      cases h with
      | cons first rest => exact .cons (first.mono le) (rest.mono le)
termination_by structural ts => ts

end

theorem Value.allAlike_iff {vs ws : List Value} :
    Value.AllAlike hidden p vs ws ↔ List.Forall₂ (Value.Alike hidden p) vs ws := by
  constructor
  · intro h
    induction vs generalizing ws with
    | nil =>
        cases h
        exact .nil
    | cons v vs ih =>
        cases h with
        | cons first rest => exact .cons first (ih rest)
  · intro h
    induction h with
    | nil => exact .nil
    | cons first _ ih => exact .cons first ih

theorem Tree.allAlike_iff {ts us : List Tree} :
    Tree.AllAlike hidden p ts us ↔ List.Forall₂ (Tree.Alike hidden p) ts us := by
  constructor
  · intro h
    induction ts generalizing us with
    | nil =>
        cases h
        exact .nil
    | cons t ts ih =>
        cases h with
        | cons first rest => exact .cons first (ih rest)
  · intro h
    induction h with
    | nil => exact .nil
    | cons first _ ih => exact .cons first ih

theorem Value.AllAlike.append {vs vs' ws ws' : List Value} (h : Value.AllAlike hidden p vs vs')
    (k : Value.AllAlike hidden p ws ws') : Value.AllAlike hidden p (vs ++ ws) (vs' ++ ws') :=
  Value.allAlike_iff.mpr (List.rel_append (Value.allAlike_iff.mp h) (Value.allAlike_iff.mp k))

/-! ## What scripts can learn of a value -/

namespace Value.Alike

variable {v v' w w' : Value}

theorem typeName_eq (h : v.Alike hidden p v') : v.typeName = v'.typeName := by cases h <;> rfl

theorem int?_eq (h : v.Alike hidden p v') : v.int? = v'.int? := by cases h <;> rfl

theorem float?_eq (h : v.Alike hidden p v') : v.float? = v'.float? := by cases h <;> rfl

theorem truthy_eq (h : v.Alike hidden p v') : v.truthy = v'.truthy := by
  cases h with
  | list items => cases items <;> rfl
  | _ => rfl

end Value.Alike

theorem Value.AllAlike.length_eq {vs ws : List Value} (h : Value.AllAlike hidden p vs ws) :
    vs.length = ws.length := (Value.allAlike_iff.mp h).length_eq

theorem Tree.AllAlike.length_eq {ts us : List Tree} (h : Tree.AllAlike hidden p ts us) :
    ts.length = us.length := (Tree.allAlike_iff.mp h).length_eq

mutual

theorem Value.Alike.same_eq (one : p.IsOneToOne) : ∀ {v v' w w' : Value}, v.Alike hidden p v' →
    w.Alike hidden p w' → v.same w = v'.same w'
  | .bool _, _, _, _, h, k | .int _, _, _, _, h, k | .float _, _, _, _, h, k | .str _, _, _, _, h, k
  | .native _, _, _, _, h, k => by
      cases h
      cases k <;> simp only [Value.same]
  | .list _, _, _, _, h, k => by
      cases h with
      | list items =>
          cases k with
          | list others => simpa only [Value.same] using items.sameAll_eq one others
          | _ => simp only [Value.same]
  | .closure .., _, _, _, h, k => by
      cases h with
      | closure body home =>
          cases k with
          | closure body' home' => simp only [Value.same, body.same_eq one body']
          | _ => simp only [Value.same]
  | .handle .., _, _, _, h, k => by
      cases h with
      | handle paired fields =>
          cases k with
          | handle paired' fields' =>
              simp only [Value.same]
              rw [Bool.eq_iff_iff, beq_iff_eq, beq_iff_eq]
              constructor
              · rintro rfl
                exact one.serial_right paired paired'
              · rintro rfl
                exact one.serial_left paired paired'
          | _ => simp only [Value.same]
  | .object _, _, _, _, h, _ => nomatch h
termination_by structural v => v

theorem Value.AllAlike.sameAll_eq (one : p.IsOneToOne) : ∀ {vs vs' ws ws' : List Value},
    Value.AllAlike hidden p vs vs' → Value.AllAlike hidden p ws ws' →
    Value.sameAll vs ws = Value.sameAll vs' ws'
  | [], _, _, _, h, k => by
      cases h
      cases k <;> simp only [Value.sameAll]
  | _ :: _, _, _, _, h, k => by
      cases h with
      | cons first rest =>
          cases k with
          | nil => simp only [Value.sameAll]
          | cons first' rest' =>
              rw [Value.sameAll, Value.sameAll, first.same_eq one first', rest.sameAll_eq one rest']
termination_by structural vs => vs

theorem Tree.Alike.same_eq (one : p.IsOneToOne) : ∀ {t t' u u' : Tree}, t.Alike hidden p t' →
    u.Alike hidden p u' → t.same u = t'.same u'
  | .literal _, _, _, _, h, k => by
      cases h with
      | literal value =>
          cases k with
          | literal value' => simpa only [Tree.same] using value.same_eq one value'
          | _ => simp only [Tree.same]
  | .reference _, _, _, _, h, k => by
      cases h
      cases k <;> simp only [Tree.same]
  | .call .., _, _, _, h, k => by
      cases h with
      | call _ args =>
          cases k with
          | call _ args' => simp only [Tree.same, args.sameAll_eq one args']
          | _ => simp only [Tree.same]
termination_by structural t => t

theorem Tree.AllAlike.sameAll_eq (one : p.IsOneToOne) : ∀ {ts ts' us us' : List Tree},
    Tree.AllAlike hidden p ts ts' → Tree.AllAlike hidden p us us' →
    Tree.sameAll ts us = Tree.sameAll ts' us'
  | [], _, _, _, h, k => by
      cases h
      cases k <;> simp only [Tree.sameAll]
  | _ :: _, _, _, _, h, k => by
      cases h with
      | cons first rest =>
          cases k with
          | nil => simp only [Tree.sameAll]
          | cons first' rest' =>
              rw [Tree.sameAll, Tree.sameAll, first.same_eq one first', rest.sameAll_eq one rest']
termination_by structural ts => ts

end

/-! ## Written forms -/

section Written

variable {e e' : Encoder}

mutual

theorem Value.Alike.value_eq (registry : e.registry = e'.registry) :
    ∀ {v w : Value}, v.Alike hidden p w → e.value v = e'.value w
  | .bool _, _, h | .int _, _, h | .float _, _, h | .str _, _, h | .native _, _, h => by
      cases h
      simp only [Encoder.value]
  | .list _, _, h => by
      cases h with
      | list items => rw [Encoder.value, Encoder.value, items.values_eq registry]
  | .closure .., _, h => by
      cases h with
      | closure body _ => rw [Encoder.value, Encoder.value, body.tree_eq registry]
  | .handle .., _, h => by
      cases h with
      | handle _ fields => rw [Encoder.value, Encoder.value, registry, fields.values_eq registry]
  | .object _, _, h => nomatch h
termination_by structural v => v

theorem Value.AllAlike.values_eq (registry : e.registry = e'.registry) :
    ∀ {vs ws : List Value}, Value.AllAlike hidden p vs ws → e.values vs = e'.values ws
  | [], _, h => by
      cases h
      rfl
  | _ :: _, _, h => by
      cases h with
      | cons first rest =>
          rw [Encoder.values, Encoder.values, first.value_eq registry, rest.values_eq registry]
termination_by structural vs => vs

theorem Tree.Alike.tree_eq (registry : e.registry = e'.registry) :
    ∀ {t u : Tree}, t.Alike hidden p u → e.tree t = e'.tree u
  | .literal _, _, h => by
      cases h with
      | literal value => rw [Encoder.tree, Encoder.tree, value.value_eq registry]
  | .reference _, _, h => by
      cases h
      simp only [Encoder.tree]
  | .call head _, _, h => by
      cases h with
      | call _ args => cases head <;> simp only [Encoder.tree, args.trees_eq registry]
termination_by structural t => t

theorem Tree.AllAlike.trees_eq (registry : e.registry = e'.registry) :
    ∀ {ts us : List Tree}, Tree.AllAlike hidden p ts us → e.trees ts = e'.trees us
  | [], _, h => by
      cases h
      rfl
  | _ :: _, _, h => by
      cases h with
      | cons first rest =>
          rw [Encoder.trees, Encoder.trees, first.tree_eq registry, rest.trees_eq registry]
termination_by structural ts => ts

end

end Written

/-! ## Homes -/

mutual

theorem Value.Alike.homes : ∀ {v w : Value}, v.Alike hidden p w →
    List.Forall₂ p.frames v.homes w.homes
  | .bool _, _, h | .int _, _, h | .float _, _, h | .str _, _, h | .native _, _, h => by
      cases h
      simp only [Value.homes]
      exact .nil
  | .list _, _, h => by
      cases h with
      | list items =>
          rw [Value.homes, Value.homes]
          exact items.homesAll
  | .closure .., _, h => by
      cases h with
      | closure body home =>
          rw [Value.homes, Value.homes]
          cases home with
          | none => exact body.homes
          | some paired => exact .cons paired body.homes
  | .handle .., _, h => by
      cases h with
      | handle _ fields =>
          rw [Value.homes, Value.homes]
          exact fields.homesAll
  | .object _, _, h => nomatch h
termination_by structural v => v

theorem Value.AllAlike.homesAll : ∀ {vs ws : List Value}, Value.AllAlike hidden p vs ws →
    List.Forall₂ p.frames (Value.homesAll vs) (Value.homesAll ws)
  | [], _, h => by
      cases h
      exact .nil
  | _ :: _, _, h => by
      cases h with
      | cons first rest =>
          rw [Value.homesAll, Value.homesAll]
          exact List.rel_append first.homes rest.homesAll
termination_by structural vs => vs

theorem Tree.Alike.homes : ∀ {t u : Tree}, t.Alike hidden p u →
    List.Forall₂ p.frames t.homes u.homes
  | .literal _, _, h => by
      cases h with
      | literal value =>
          rw [Tree.homes, Tree.homes]
          exact value.homes
  | .reference _, _, h => by
      cases h
      rw [Tree.homes]
      exact .nil
  | .call .., _, h => by
      cases h with
      | call _ args =>
          rw [Tree.homes, Tree.homes]
          exact args.homesAll
termination_by structural t => t

theorem Tree.AllAlike.homesAll : ∀ {ts us : List Tree}, Tree.AllAlike hidden p ts us →
    List.Forall₂ p.frames (Tree.homesAll ts) (Tree.homesAll us)
  | [], _, h => by
      cases h
      exact .nil
  | _ :: _, _, h => by
      cases h with
      | cons first rest =>
          rw [Tree.homesAll, Tree.homesAll]
          exact List.rel_append first.homes rest.homesAll
termination_by structural ts => ts

end

/-! ## Results -/

/-- Results that agree: the same fault, or values that are related. -/
inductive Agree {ε α β : Type} (R : α → β → Prop) : Except ε α → Except ε β → Prop
  | ok {a : α} {b : β} : R a b → Agree R (.ok a) (.ok b)
  | error (fault : ε) : Agree R (.error fault) (.error fault)

/-- Results that do not depend on paired names. -/
abbrev Same {α : Type} : Pairing → α → α → Prop := fun _ a b => a = b

theorem Agree.of_eq {ε α : Type} {R : α → α → Prop} {a b : Except ε α} (same : a = b)
    (h : ∀ x, a = .ok x → R x x) : Agree R a b := by
  subst same
  cases a with
  | ok x => exact .ok (h x rfl)
  | error fault => exact .error fault

/-! ## Registered types -/

/-- The decoder of a type cannot tell paired names from each other: it makes alike fields of alike
values, or refuses them with the same words. -/
def WireType.IsNatural (type : WireType) : Prop :=
  ∀ (hidden : String → Prop) (p : Pairing), p.IsOneToOne → ∀ vs ws : List Value,
    Value.AllAlike hidden p vs ws →
    Agree (Value.AllAlike hidden p) (type.decode vs) (type.decode ws)

/-- All types that a name makes are natural. -/
def Registry.IsNatural (r : Registry) : Prop :=
  ∀ name type, r.named? name = some type → type.IsNatural

theorem Registry.IsNatural.decode {r : Registry} (natural : r.IsNatural) (one : p.IsOneToOne)
    (name : String) {vs ws : List Value} (h : Value.AllAlike hidden p vs ws) (s t : Nat) :
    Agree (Value.Alike hidden (p.withSerials s t)) (r.decode name vs s) (r.decode name ws t) := by
  cases known : r.named? name with
  | none =>
      simp only [Registry.decode, known]
      exact .error _
  | some type =>
      simp only [Registry.decode, known]
      have fields := natural name type known hidden p one vs ws h
      generalize type.decode vs = left, type.decode ws = right at fields ⊢
      cases fields with
      | error fault => exact .error _
      | ok fields => exact .ok (.handle (.inr ⟨rfl, rfl⟩) (fields.mono (p.le_withSerials s t)))

theorem Agree.mapM {ε : Type} {f : Value → Except ε Value}
    (each : ∀ {v w : Value}, v.Alike hidden p w → Agree (Value.Alike hidden p) (f v) (f w))
    {vs ws : List Value} (h : Value.AllAlike hidden p vs ws) :
    Agree (Value.AllAlike hidden p) (vs.mapM f) (ws.mapM f) := by
  induction vs generalizing ws with
  | nil =>
      cases h
      exact .ok .nil
  | cons v vs ih =>
      cases h with
      | @cons _ w _ ws first rest =>
          rw [List.mapM_cons, List.mapM_cons]
          have one := each first
          have others := ih rest
          generalize f v = x, f w = y at one ⊢
          cases one with
          | error fault => exact .error fault
          | ok one =>
              generalize vs.mapM f = xs, ws.mapM f = ys at others ⊢
              cases others with
              | error fault => exact .error fault
              | ok others => exact .ok (.cons one others)

/-- A component of a point. -/
def Value.component (v : Value) : Except String Value :=
  match v.float? with
  | some f => .ok (.float f)
  | none => .error ("expected a number, got " ++ v.typeName)

theorem Value.Alike.component_agrees {v w : Value} (h : v.Alike hidden p w) :
    Agree (Value.Alike hidden p) v.component w.component := by
  rw [Value.component, Value.component, h.float?_eq, h.typeName_eq]
  cases w.float? with
  | none => exact .error _
  | some f => exact .ok (.float f)

theorem WireType.vector3_isNatural : WireType.vector3.IsNatural := by
  intro hidden p _ vs ws h
  have count := h.length_eq
  have components : Agree (Value.AllAlike hidden p) (vs.mapM Value.component)
      (ws.mapM Value.component) := Agree.mapM Value.Alike.component_agrees h
  rcases h with _ | ⟨first, _ | ⟨second, _ | ⟨third, _ | ⟨fourth, rest⟩⟩⟩⟩
  case cons.cons.cons.nil => exact components
  all_goals
    change Agree _ (.error ("expected 3 components, got " ++ toString _))
      (.error ("expected 3 components, got " ++ toString _))
    rw [count]
    exact .error _

theorem Registry.standard_isNatural : Registry.standard.IsNatural := by
  intro name type known
  have found : (Association.put WireType.vector3.name WireType.vector3 []).lookup name =
      some type := known
  rw [Association.lookup_put] at found
  split at found
  · cases found
    exact WireType.vector3_isNatural
  · exact nomatch found

end PeerScript
