import Mathlib.Data.List.Induction
import PeerScript.Proofs.Reply

/-!
# The two tables of a registry

A registry answers under which name the instances of a type are written, and which type a name
makes.  Each registration replaces an entry of both tables, and the two entries that it replaces
need not be of one registration.

`IsLast` tells registrations apart by their numbers, whatever they have in common.  An instance is
written by the last registration of its type, and what is written is read by the last registration
of the name, so `decoder_agrees_iff` says when these two are one: as long as the name is not
registered again.  If it is, then for another type, and no instance that is made under the name is
of the old one.
-/

set_option autoImplicit false

namespace PeerScript.Registry

/-- The registry behind the given registrations, the first of which comes first. -/
def ofTypes (types : List WireType) : Registry := types.foldl register .empty

/-! ## The last registration with a property -/

/-- The registration with the number `i` is of `type` and has a property, and none behind it has. -/
structure IsLast (types : List WireType) (p : WireType → Prop) (i : Nat) (type : WireType) :
    Prop where
  here : types[i]? = some type
  holds : p type
  last : ∀ j other, i < j → types[j]? = some other → ¬ p other

section Last

variable {types : List WireType} {p : WireType → Prop} {type other : WireType} {i j : Nat}

/-- No registration with the property is behind the last one. -/
theorem IsLast.le (h : IsLast types p i type) (here : types[j]? = some other) (holds : p other) :
    j ≤ i := by
  by_contra behind
  exact h.last j other (Nat.lt_of_not_le behind) here holds

/-- There is only one last registration. -/
theorem IsLast.unique (h : IsLast types p i type) (h' : IsLast types p j other) : i = j :=
  Nat.le_antisymm (h'.le h.here h.holds) (h.le h'.here h'.holds)

/-- A registration that is not behind the last one is the last one exactly if the property does not
hold again. -/
theorem IsLast.eq_iff_alone (h : IsLast types p i type) (before : j ≤ i) :
    i = j ↔ ∀ k other, j < k → types[k]? = some other → ¬ p other := by
  constructor
  · rintro rfl
    exact h.last
  · intro alone
    rcases Nat.lt_or_eq_of_le before with behind | same
    · exact absurd h.holds (alone i type behind h.here)
    · exact same.symm

/-- Of what comes behind the last registration, nothing has the property. -/
theorem IsLast.holds_iff (h : IsLast types p i type) (behind : i ≤ j)
    (here : types[j]? = some other) :
    p other ↔ j = i := by
  constructor
  · exact fun holds => Nat.le_antisymm (h.le here holds) behind
  · rintro rfl
    exact Option.some.inj (h.here.symm.trans here) ▸ h.holds

theorem IsLast.concat (holds : p type) : IsLast (types ++ [type]) p types.length type where
  here := List.getElem?_concat_length
  holds := holds
  last j other behind found := by
    rw [List.getElem?_eq_none (by rw [List.length_append]; exact behind)] at found
    exact nomatch found

/-- One more registration is the last one with the property, or makes no difference. -/
theorem IsLast.concat_iff (fails : ¬ p other) :
    IsLast (types ++ [other]) p i type ↔ IsLast types p i type := by
  constructor
  · intro h
    have inside : i < types.length := by
      by_contra outside
      obtain ⟨bound, found⟩ := List.getElem?_eq_some_iff.mp h.here
      have last : i = types.length := by
        rw [List.length_append, List.length_singleton] at bound
        omega
      subst last
      rw [List.getElem_concat_length rfl] at found
      exact fails (found ▸ h.holds)
    refine ⟨(List.getElem?_append_left inside).symm.trans h.here, h.holds,
      fun j u behind found => ?_⟩
    have bound := (List.getElem?_eq_some_iff.mp found).1
    exact h.last j u behind ((List.getElem?_append_left bound).trans found)
  · intro h
    have inside := (List.getElem?_eq_some_iff.mp h.here).1
    refine ⟨(List.getElem?_append_left inside).trans h.here, h.holds, fun j u behind found => ?_⟩
    rcases Nat.lt_or_ge j types.length with old | new
    · exact h.last j u behind ((List.getElem?_append_left old).symm.trans found)
    · rw [List.getElem?_append_right new] at found
      obtain rfl := List.mem_singleton.mp (List.mem_of_getElem? found)
      exact fails

/-- If there is a registration with the property, then there is a last one. -/
theorem exists_isLast (mem : type ∈ types) (holds : p type) : ∃ i last, IsLast types p i last := by
  induction types using List.reverseRecOn with
  | nil => exact nomatch mem
  | append_singleton types t ih =>
      by_cases has : p t
      · exact ⟨_, t, .concat has⟩
      rcases List.mem_append.mp mem with old | new
      · obtain ⟨i, last, h⟩ := ih old
        exact ⟨i, last, (IsLast.concat_iff has).mpr h⟩
      · obtain rfl := List.mem_singleton.mp new
        exact absurd holds has

end Last

/-! ## What the tables hold -/

section Tables

variable {types : List WireType} {type : WireType} {name : String} {kind : Kind}

/-- A table in which every registration replaces the entry of its own key holds the last
registrations of all keys. -/
theorem lookup_ofTypes {α : Type} [DecidableEq α] (key : WireType → α)
    (table : Registry → List (α × WireType)) (empty : table .empty = [])
    (put : ∀ (r : Registry) (t : WireType), table (r.register t) =
      Association.put (key t) t (table r))
    (types : List WireType) (k : α) (type : WireType) :
    (table (ofTypes types)).lookup k = some type ↔ ∃ i,
    IsLast types (fun t => key t = k) i type := by
  induction types using List.reverseRecOn with
  | nil =>
      rw [ofTypes, List.foldl_nil, empty]
      constructor
      · exact fun found => nomatch found
      · exact fun ⟨_, h⟩ => nomatch h.here
  | append_singleton types t ih =>
      rw [ofTypes, List.foldl_concat, put, Association.lookup_put]
      split
      · rename_i same
        constructor
        · rintro ⟨⟩
          exact ⟨types.length, .concat same.symm⟩
        · rintro ⟨i, h⟩
          have last : IsLast (types ++ [t]) (fun t => key t = k) types.length t := .concat same.symm
          have here := h.here
          rw [h.unique last, List.getElem?_concat_length] at here
          exact here
      · rename_i differs
        rw [← ofTypes, ih]
        exact exists_congr fun i => (IsLast.concat_iff fun same => differs same.symm).symm

theorem named?_ofTypes : (ofTypes types).named? name = some type ↔ ∃ i,
      IsLast types (·.name = name) i type :=
  lookup_ofTypes WireType.name Registry.byName rfl (fun _ _ => rfl) types name type

theorem ofKind?_ofTypes : (ofTypes types).ofKind? kind = some type ↔ ∃ i,
      IsLast types (·.kind = kind) i type :=
  lookup_ofTypes WireType.kind Registry.byKind rfl (fun _ _ => rfl) types kind type

theorem ofKind?_ofTypes_eq_none (unknown : ∀ t ∈ types, t.kind ≠ kind) :
    (ofTypes types).ofKind? kind = none := by
  refine Option.eq_none_iff_forall_ne_some.mpr fun used found => ?_
  obtain ⟨i, writes⟩ := ofKind?_ofTypes.mp found
  exact unknown used (List.mem_of_getElem? writes.here) writes.holds

end Tables

/-! ## Writing and reading back -/

/-- What a name makes is an instance of its type, with the fields that the decoder of the type
gives. -/
theorem decode_eq_ok_iff {r : Registry} {name : String} {type : WireType}
    (named : r.named? name = some type) {values : List Value} {serial : Nat} {v : Value} :
    r.decode name values serial = .ok v ↔
      ∃ parts, type.decode values = .ok parts ∧ v = .handle type.kind serial parts := by
  simp only [decode, named]
  split <;> rename_i decoded <;> rw [decoded]
  · constructor
    · rintro ⟨⟩
      exact ⟨_, rfl, rfl⟩
    · rintro ⟨_, ⟨⟩, rfl⟩
      rfl
  · constructor
    · rintro ⟨⟩
    · rintro ⟨_, ⟨⟩, _⟩

/-- The instances of a type that was not registered are quoted.  Those of a registered type are
written under the name of its last registration, and what is written is read by the last
registration of that name.  The two are the same registration as long as the name is not registered
again, and exactly then an instance of the same type is made. -/
theorem decoder_agrees_iff (types : List WireType) (describe : Object → String)
    (kind : Kind) (serial : Nat) (fields : List Value) :
    let e : Encoder := ⟨ofTypes types, describe⟩
    ((∀ t ∈ types, t.kind ≠ kind) ∧
      e.value (.handle kind serial fields) = Text.Quoted.quote ("<" ++ kind.label ++ ">").toList) ∨
    ∃ i used k maker,
      IsLast types (·.kind = kind) i used ∧
      e.value (.handle kind serial fields) = Encoder.applied used.name.toList (e.values fields) ∧
      IsLast types (·.name = used.name) k maker ∧
      (∀ values next made, e.registry.decode used.name values next = .ok made ↔
        ∃ parts, maker.decode values = .ok parts ∧ made = .handle maker.kind next parts) ∧
      (k = i ↔ ∀ j other, i < j → types[j]? = some other → other.name ≠ used.name) ∧
      (maker.kind = kind ↔ k = i) := by
  intro e
  by_cases known : ∃ t ∈ types, t.kind = kind
  · right
    obtain ⟨t, mem, isKind⟩ := known
    obtain ⟨i, used, writes⟩ := exists_isLast (p := (·.kind = kind)) mem isKind
    have within := List.mem_of_getElem? writes.here
    obtain ⟨k, maker, makes⟩ := exists_isLast (p := (·.name = used.name)) within rfl
    have written : e.registry.ofKind? kind = some used := ofKind?_ofTypes.mpr ⟨i, writes⟩
    have made : e.registry.named? used.name = some maker := named?_ofTypes.mpr ⟨k, makes⟩
    have behind : i ≤ k := makes.le writes.here rfl
    refine ⟨i, used, k, maker, writes, ?_, makes, fun values next v => decode_eq_ok_iff made,
      makes.eq_iff_alone behind, writes.holds_iff behind makes.here⟩
    rw [Encoder.value]
    simp only [written]
  · left
    have unknown : ∀ t ∈ types, t.kind ≠ kind := fun t mem isKind => known ⟨t, mem, isKind⟩
    have none : e.registry.ofKind? kind = none := ofKind?_ofTypes_eq_none unknown
    refine ⟨unknown, ?_⟩
    rw [Encoder.value]
    simp only [none]

/-- A type whose instances have two integers for fields. -/
def twoIntegers (name key : String) : WireType where
  name := name
  kind := ⟨key, key⟩
  decode
    | [.int x, .int y] => .ok [.int x, .int y]
    | _ => .error "expected two ints"

/-- A type is registered under a name, and then another one under the same name.  The instances of
the first one are still written under the name, which makes instances of the second one. -/
theorem decoder_disagrees :
    (⟨ofTypes [twoIntegers "A" "Pair", twoIntegers "A" "PointRec"], Object.typeName⟩ :
    Encoder).encode (.handle ⟨"Pair", "Pair"⟩ 0 [.int 1, .int 2]) = "A(1, 2)" ∧
    (ofTypes [twoIntegers "A" "Pair", twoIntegers "A" "PointRec"]).decode "A" [.int 1, .int 2] 1 =
      .ok (.handle ⟨"PointRec", "PointRec"⟩ 1 [.int 1, .int 2]) := by
  constructor
  · decide +kernel
  · rfl

end PeerScript.Registry
