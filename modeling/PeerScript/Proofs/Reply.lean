import PeerScript.Proofs.RoundTrip
import PeerScript.Proofs.Running

/-!
# A reply rebuilds the stack

A reply is a script: running it pushes the values of the stack that it was written from, in order.
`reply_rebuilds` says so for every stack of portable values, on top of whatever lies on the stack of
the reader.  Instances are made anew, so a value and its copy may differ in serial numbers.

Most values are read as literals.  The least integer is read as a call, and so is every list and
every instance around it.  `Rebuilds` covers both: it says what running the tree does.
-/

set_option autoImplicit false

namespace PeerScript

open Script (nestingLimit)
open Script.Pi (IsPlain)
open Association (lookup_put)

/-! ## Copies -/

mutual

/-- A value whose instances have no serial numbers of their own. -/
def Value.unnumbered : Value → Value
  | .list items => .list (Value.unnumberedAll items)
  | .handle kind _ fields => .handle kind 0 (Value.unnumberedAll fields)
  | v => v

/-- Values whose instances have no serial numbers of their own. -/
def Value.unnumberedAll : List Value → List Value
  | [] => []
  | v :: rest => v.unnumbered :: Value.unnumberedAll rest

end

theorem Value.unnumberedAll_eq_map (vs : List Value) :
    Value.unnumberedAll vs = vs.map Value.unnumbered := by
  induction vs with
  | nil => rfl
  | cons v vs ih => rw [unnumberedAll, ih, List.map_cons]

/-- A value is a copy of another one if the two differ in serial numbers only. -/
def Value.Copies (copy v : Value) : Prop := copy.unnumbered = v.unnumbered

theorem Value.copies_list {copies items : List Value} (h : List.Forall₂ Value.Copies copies items) :
    (Value.list copies).Copies (.list items) := by
  have same : copies.map Value.unnumbered = items.map Value.unnumbered := by
    induction h with
    | nil => rfl
    | cons first _ ih => rw [List.map_cons, List.map_cons, first, ih]
  simp only [Value.Copies, Value.unnumbered, Value.unnumberedAll_eq_map, same]

theorem Value.copies_handle {copies fields : List Value} (kind : Kind) (serial serial' : Nat)
    (h : List.Forall₂ Value.Copies copies fields) :
    (Value.handle kind serial copies).Copies (.handle kind serial' fields) := by
  have listed := Value.copies_list h
  simp only [Value.Copies, Value.unnumbered, Value.list.injEq] at listed ⊢
  rw [listed]

/-- A copy of what is no function is none. -/
theorem Value.Copies.noClosure {copy v : Value} (h : copy.Copies v)
    (no : ∀ ps b f, v ≠ .closure ps b f) : ∀ ps b f, copy ≠ .closure ps b f := by
  rintro ps b f rfl
  cases v <;> simp only [Value.Copies, Value.unnumbered, reduceCtorEq] at h
  exact no _ _ _ rfl

/-! ## Portable values -/

/-- The instances of a kind are written under the name of a type, and the name makes that type. -/
structure Registry.Spells (r : Registry) (kind : Kind) (type : WireType) : Prop where
  written : r.ofKind? kind = some type
  made : r.named? type.name = some type
  kind_eq : type.kind = kind

/-- The decoder of a type takes copies of the fields and makes an instance with such fields. -/
def WireType.Restores (type : WireType) (fields : List Value) : Prop :=
  ∀ given, List.Forall₂ Value.Copies given fields →
    ∃ made, type.decode given = .ok made ∧ List.Forall₂ Value.Copies made fields

mutual

/-- A value that a reader with the same registry can rebuild in a scope that hides none of the
types. -/
def Value.IsPortable (r : Registry) (isBound : String → Bool) : Value → Prop
  | .bool _ | .int _ | .str _ => True
  | .list items => Value.ArePortable r isBound items
  | .handle kind _ fields =>
      (∃ type, r.Spells kind type ∧ IsVariable type.name ∧ isBound type.name = false ∧
        type.Restores fields) ∧ Value.ArePortable r isBound fields
  | _ => False

/-- Values that a reader can rebuild. -/
def Value.ArePortable (r : Registry) (isBound : String → Bool) : List Value → Prop
  | [] => True
  | v :: rest => v.IsPortable r isBound ∧ Value.ArePortable r isBound rest

end

theorem Registry.Spells.decode {r : Registry} {kind : Kind} {type : WireType}
    (h : r.Spells kind type) {given made : List Value} (decoded : type.decode given = .ok made)
    {serial : Nat} :
    r.decode type.name given serial = .ok (.handle kind serial made) := by
  rw [Registry.decode, h.made]
  simp only [decoded, h.kind_eq]

/-- A type is spelled by its name as long as neither its name nor its kind is registered again. -/
theorem Registry.spells_of_registered (r : Registry) (type : WireType) {later : List WireType}
    (alone : ∀ other ∈ later, other.name ≠ type.name ∧ other.kind ≠ type.kind) :
    (later.foldl Registry.register (r.register type)).Spells type.kind type := by
  have kept : ∀ {r : Registry}, r.Spells type.kind type →
      (later.foldl Registry.register r).Spells type.kind type := by
    induction later with
    | nil => exact id
    | cons other later ih =>
        obtain ⟨otherName, otherKind⟩ := alone other List.mem_cons_self
        intro r spells
        refine ih (fun t among => alone t (List.mem_cons_of_mem other among)) ⟨?_, ?_, rfl⟩
        · exact (lookup_put ..).trans ((if_neg otherKind.symm).trans spells.written)
        · exact (lookup_put ..).trans ((if_neg otherName.symm).trans spells.made)
  refine kept ⟨?_, ?_, rfl⟩
  · exact (lookup_put ..).trans (if_pos rfl)
  · exact (lookup_put ..).trans (if_pos rfl)

/-! ## Trees that rebuild values -/

/-- The tree pushes a copy of the value, whoever runs it with the given registry. -/
structure Rebuilds (r : Registry) (v : Value) (t : Tree) : Prop where
  literal : ∀ copy, t.value? = some copy → copy.Copies v
  pushes : ∀ {σ : Type} (host : Host σ) (inside : Option (Inside σ)) (scope : FrameId)
    (m : Machine σ), m.session.registry = r → ∃ copy serial,
      evalTree host inside t scope m = .ok () ((m.numbered serial).push copy) ∧ copy.Copies v

variable {r : Registry}

theorem rebuilds_literal {copy v : Value} (copies : copy.Copies v)
    (no : ∀ ps b f, v ≠ .closure ps b f) : Rebuilds r v (.literal copy) where
  literal := by
    rintro _ ⟨⟩
    exact copies
  pushes host inside scope m _ :=
    ⟨copy, m.common.serial, evalTree_literal host inside (copies.noClosure no) scope, copies⟩

/-- Trees that rebuild values push copies of them, in order. -/
theorem evalTrees_rebuild {σ : Type} (host : Host σ) (inside : Option (Inside σ)) (scope : FrameId)
    {vs : List Value} {ts : List Tree} (each : List.Forall₂ (Rebuilds r) vs ts) :
    ∀ m : Machine σ, m.session.registry = r → ∃ copies serial,
      evalTrees host inside ts scope m = .ok () ((m.numbered serial).pushAll copies) ∧
        List.Forall₂ Value.Copies copies vs := by
  induction each with
  | nil => exact fun m _ => ⟨[], m.common.serial, rfl, .nil⟩
  | cons first _ ih =>
      intro m registry
      obtain ⟨copy, serial, pushed, copies⟩ := first.pushes host inside scope m registry
      obtain ⟨others, serial', run, rest⟩ := ih ((m.numbered serial).push copy) registry
      refine ⟨copy :: others, serial', ?_, .cons copies rest⟩
      rw [evalTrees_cons_of_ok host inside pushed, run]
      simp [Machine.pushAll, Machine.push, Machine.numbered]

/-- The literals among trees that rebuild values are copies of them. -/
theorem copies_of_mapM {vs copies : List Value} {ts : List Tree}
    (each : List.Forall₂ (Rebuilds r) vs ts) (literals : ts.mapM Tree.value? = some copies) :
    List.Forall₂ Value.Copies copies vs := by
  induction each generalizing copies with
  | nil =>
      cases literals
      exact .nil
  | cons first _ ih =>
      rw [List.mapM_cons] at literals
      obtain ⟨copy, isLiteral, literals⟩ := Option.bind_eq_some_iff.mp literals
      obtain ⟨others, areLiterals, same⟩ := Option.bind_eq_some_iff.mp literals
      cases same
      exact .cons (first.literal copy isLiteral) (ih areLiterals)

/-- A list of trees that rebuild its items rebuilds the list, folded or not. -/
theorem rebuilds_list {vs : List Value} {ts : List Tree} (each : List.Forall₂ (Rebuilds r) vs ts) :
    Rebuilds r (.list vs) (Script.Parser.list ts) := by
  rw [Script.Parser.list]
  split
  · rename_i copies literals
    exact rebuilds_literal (Value.copies_list (copies_of_mapM each literals)) (by simp)
  · refine ⟨by rintro _ ⟨⟩, fun host inside scope m registry => ?_⟩
    obtain ⟨copies, serial, run, rest⟩ := evalTrees_rebuild host inside scope each m registry
    refine ⟨.list copies, serial, ?_, Value.copies_list rest⟩
    rw [evalTree_call host inside Head.noConfusion run rfl]
    rfl

/-- A call of a type with trees that rebuild the fields makes an instance with such fields. -/
theorem rebuilds_construct {kind : Kind} {type : WireType} (spells : r.Spells kind type)
    (serial : Nat) {fields : List Value} (restores : type.Restores fields) {ts : List Tree}
    (each : List.Forall₂ (Rebuilds r) fields ts) :
    Rebuilds r (.handle kind serial fields) (.call (.construct type.name) ts) := by
  refine ⟨by rintro _ ⟨⟩, fun host inside scope m registry => ?_⟩
  obtain ⟨copies, next, run, rest⟩ := evalTrees_rebuild host inside scope each m registry
  obtain ⟨made, decoded, right⟩ := restores copies rest
  refine ⟨.handle kind next made, next + 1, ?_, Value.copies_handle kind next serial right⟩
  rw [evalTree_call host inside Head.noConfusion run rfl]
  change (Run.ofExcept (m.session.registry.decode type.name copies next) >>= _) _ = _
  rw [registry, spells.decode decoded]
  rfl

/-! ## Reading copies -/

mutual

theorem Value.IsPortable.isSpelled {isBound : String → Bool} :
    ∀ {v : Value}, v.IsPortable r isBound → v.IsSpelled r
  | .bool _, _ | .int _, _ | .str _, _ => by simp only [Value.IsSpelled]
  | .list items, h => by
      rw [Value.IsPortable] at h
      rw [Value.IsSpelled]
      exact Value.ArePortable.areSpelled h
  | .handle kind _ fields, h => by
      rw [Value.IsPortable] at h
      obtain ⟨⟨type, spells, isVariable, -⟩, portable⟩ := h
      rw [Value.IsSpelled]
      intro other written
      obtain rfl : type = other := Option.some.inj (spells.written.symm.trans written)
      exact ⟨isVariable.isName, Value.ArePortable.areSpelled portable⟩
  | .float _, h | .closure .., h | .native _, h | .object _, h => by
      rw [Value.IsPortable] at h
      · exact h.elim
      all_goals simp

theorem Value.ArePortable.areSpelled {isBound : String → Bool} :
    ∀ {vs : List Value}, Value.ArePortable r isBound vs → Value.AreSpelled r vs
  | [], _ => by rw [Value.AreSpelled]; trivial
  | v :: rest, h => by
      rw [Value.ArePortable] at h
      rw [Value.AreSpelled]
      exact ⟨Value.IsPortable.isSpelled h.1, Value.ArePortable.areSpelled h.2⟩

end

namespace Script.Pi

open PeerScript.Script.Parser
open Encoder (pathTokens integerTokens numeral appliedTokens bracketedTokens)

/-- The invariant of a parser that brings no names into view. -/
def Unnamed : Invariant := fun names _ => names = [[]]

theorem begins_portable {isBound : String → Bool} (e : Encoder) :
    ∀ {v : Value}, v.IsPortable e.registry isBound → Begins (e.valueTokens v)
  | .bool _, _ | .str _, _ | .list _, _ => by
      rw [Encoder.valueTokens]
      exact ⟨_, _, rfl, rfl⟩
  | .int i, _ => begins_integer i
  | .handle kind _ fields, h => by
      rw [Value.IsPortable] at h
      obtain ⟨⟨type, spells, -⟩, -⟩ := h
      rw [Encoder.valueTokens, spells.written]
      exact begins_name type.name _
  | .float _, h | .closure .., h | .native _, h | .object _, h => by
      rw [Value.IsPortable] at h
      · exact h.elim
      all_goals simp

section Rebuilding

variable {ctx : Context}

/-- The least integer is read as a difference that rebuilds it. -/
theorem leastInteger_reads (levels : Nat) :
    Reads Unnamed (term ctx (levels + 2)) (integerTokens Int64.minValue)
      (Rebuilds ctx.registry (.int Int64.minValue)) := by
  have each : ∀ i ∈ [-9223372036854775807, (1 : Int64)],
      Reads Unnamed (term ctx (levels + 1)) (integerTokens i) (· = .literal (.int i)) := by
    intro i among
    refine constant_reads ?_ (term ctx levels)
    rintro rfl
    exact absurd among (by decide)
  have reads : Reads Unnamed (term ctx (levels + 2)) (integerTokens Int64.minValue) _ :=
    op_reads ctx (.of_forall each) (fun i _ => begins_integer i)
      (isOperator_mark .sub) (operatorFor_mark .sub)
  refine reads.mono ?_
  rintro _ ⟨operands, rights, rfl⟩
  obtain rfl := eq_map_of_forall₂ (f := fun i : Int64 => Tree.literal (.int i)) rights
  refine ⟨by rintro _ ⟨⟩, fun host inside scope m _ => ⟨_, m.common.serial, ?_, rfl⟩⟩
  have run := evalTrees_literals host inside [.int (-9223372036854775807), .int 1] (by simp) scope m
  refine (evalTree_call host inside Head.noConfusion run rfl).trans ?_
  have difference : Operator.sub.apply [.int (-9223372036854775807), .int 1] =
      .ok (.int Int64.minValue) := rfl
  rw [dispatch, difference]
  rfl

/-- A call of a type that no name hides, with terms that rebuild the fields. -/
theorem instance_reads {kind : Kind} {type : WireType} {levels : Nat} {fields : List Value}
    {tokens : Value → List Token} (spells : ctx.registry.Spells kind type)
    (isVariable : IsVariable type.name) (free : ctx.isBound type.name = false) (serial : Nat)
    (restores : type.Restores fields)
    (each : ∀ v ∈ fields, Reads Unnamed (term ctx levels) (tokens v) (Rebuilds ctx.registry v))
    (begins : ∀ v ∈ fields, Begins (tokens v)) :
    Reads Unnamed (term ctx (levels + 1)) (appliedTokens [.name type.name] (fields.map tokens))
      (Rebuilds ctx.registry (.handle kind serial fields)) := by
  intro c more follows stands
  have named : Stands Unnamed c
      (appliedTokens (pathTokens ⟨[type.name]⟩) (fields.map tokens) ++ more) := stands
  obtain ⟨operands, place, c', begun, rights, stands'⟩ :=
    path_call ctx isVariable.isPlain (.of_forall each) begins follows named
  have hidden : sees ctx type.name c' = .ok (false, c') := by
    change Except.ok (c'.names.any (·.contains type.name) || ctx.isBound type.name, c') = _
    rw [stands'.keeps, free]
    rfl
  have known : ctx.registry.contains type.name = true := by
    rw [Registry.contains, spells.made]
    rfl
  have heads :
      ((Path.mk [type.name]).isName && !false && ctx.registry.contains type.name) = true := by
    rw [known]
    rfl
  rw [term, begun, call, show (Path.mk [type.name]).root = type.name from rfl, bind_of_ok hidden]
  simp only [heads, if_true]
  cases folds : operands.mapM Tree.value? with
  | none => exact ⟨_, c', rfl, rebuilds_construct spells serial restores rights, stands'⟩
  | some given =>
      obtain ⟨made, decoded, right⟩ := restores given (copies_of_mapM rights folds)
      refine ⟨.literal (.handle kind c'.serial made), { c' with serial := c'.serial + 1 }, ?_,
        rebuilds_literal (Value.copies_handle kind _ serial right) (by simp),
        stands'.flat, stands'.shows, stands'.keeps⟩
      have current : (get : Parser Cursor) c' = .ok (c', c') := rfl
      dsimp only
      rw [bind_of_ok current, spells.decode decoded]
      rfl

mutual

theorem portable_reads (e : Encoder) (registry : e.registry = ctx.registry) :
    ∀ (v : Value) (levels : Nat), v.IsPortable ctx.registry ctx.isBound → v.nesting ≤ levels →
      Reads Unnamed (term ctx levels) (e.valueTokens v) (Rebuilds ctx.registry v)
  | v, 0, _, shallow => absurd shallow (Nat.not_le_of_lt v.nesting_pos)
  | .bool b, levels + 1, _, _ =>
      (literal_reads ctx (constant?_bool b)).mono fun _ same =>
        same ▸ rebuilds_literal rfl (by simp)
  | .str s, levels + 1, _, _ =>
      (literal_reads ctx rfl).mono fun _ same =>
        same ▸ rebuilds_literal rfl (by simp)
  | .int i, levels + 1, _, shallow => by
      rw [Encoder.valueTokens]
      by_cases least : i = Int64.minValue
      · subst least
        obtain ⟨below, rfl⟩ : ∃ below, levels = below + 1 := ⟨levels - 1, by
          simp only [Value.nesting, if_true] at shallow
          omega⟩
        exact leastInteger_reads below
      · exact (constant_reads least (term ctx levels)).mono fun _ same =>
          same ▸ rebuilds_literal rfl (by simp)
  | .list items, levels + 1, portable, shallow => by
      rw [Value.IsPortable] at portable
      rw [Value.nesting] at shallow
      obtain ⟨each, begins⟩ := portables_read e registry items levels portable (by omega)
      rw [Encoder.valueTokens, Encoder.valuesTokens_eq_map]
      refine (list_reads ctx (.of_forall each) begins).mono ?_
      rintro _ ⟨trees, rights, rfl⟩
      exact rebuilds_list rights
  | .handle kind serial fields, levels + 1, portable, shallow => by
      rw [Value.IsPortable] at portable
      rw [Value.nesting] at shallow
      obtain ⟨⟨type, spells, isVariable, free, restores⟩, portable⟩ := portable
      obtain ⟨each, begins⟩ := portables_read e registry fields levels portable (by omega)
      rw [Encoder.valueTokens, registry, spells.written]
      simp only [Encoder.valuesTokens_eq_map]
      exact instance_reads spells isVariable free serial restores each begins
  | .float _, _ + 1, h, _ | .closure .., _ + 1, h, _ | .native _, _ + 1, h, _
  | .object _, _ + 1, h, _ => by
      rw [Value.IsPortable] at h
      · exact h.elim
      all_goals simp

theorem portables_read (e : Encoder) (registry : e.registry = ctx.registry) :
    ∀ (vs : List Value) (levels : Nat), Value.ArePortable ctx.registry ctx.isBound vs →
      Value.deepest vs ≤ levels →
      (∀ v ∈ vs, Reads Unnamed (term ctx levels) (e.valueTokens v) (Rebuilds ctx.registry v)) ∧
        ∀ v ∈ vs, Begins (e.valueTokens v)
  | [], _, _, _ => ⟨nofun, nofun⟩
  | w :: rest, levels, portable, shallow => by
      rw [Value.ArePortable] at portable
      rw [Value.deepest] at shallow
      have first := portable_reads e registry w levels portable.1 (by omega)
      have others := portables_read e registry rest levels portable.2 (by omega)
      have begins := begins_portable e (registry ▸ portable.1)
      exact ⟨List.forall_mem_cons.mpr ⟨first, others.1⟩,
        List.forall_mem_cons.mpr ⟨begins, others.2⟩⟩

end

end Rebuilding

end Script.Pi

/-- A reply to be read with the same registry, in a scope that hides none of its types, is a script.
Running it succeeds and pushes copies of the values of the stack, in order, onto what lies on the
stack of the reader. -/
theorem reply_rebuilds {σ : Type} (host : Host σ) (m : Machine σ) (isBound : String → Bool)
    (describe : Object → String) (stack : List Value)
    (portable : Value.ArePortable m.session.registry isBound stack)
    (shallow : Value.deepest stack ≤ nestingLimit) (serial : Nat) :
    ∃ tree next, Script.parse .pi ⟨isBound, m.session.registry⟩
        (Encoder.script ⟨m.session.registry, describe⟩ stack) serial = .ok (tree, next) ∧
      ∃ m' copies, runScript host tree m = .ok () m' ∧
        m'.session.values = m.session.values ++ copies ∧
        List.Forall₂ Value.Copies copies stack := by
  let e : Encoder := ⟨m.session.registry, describe⟩
  let ctx : Script.Context := ⟨isBound, m.session.registry⟩
  have same : e.registry = ctx.registry := rfl
  obtain ⟨each, begins⟩ := Script.Pi.portables_read e same stack nestingLimit portable shallow
  have cut : Script.Lexes (e.script stack).toList
      ((stack.map e.valueTokens).flatten ++ [.finish]) := by
    rw [Encoder.script, String.toList_ofList, Encoder.values_eq_map,
      ← List.append_nil (List.intercalate _ _)]
    exact Encoder.cutsInto_spaced (Encoder.lexes_values e stack portable.areSpelled)
      Encoder.Apart.nil Script.Lexes.nil
  have initial : Script.Pi.Unnamed [[]] serial := rfl
  obtain ⟨trees, next, names, parsed, rights, -⟩ := Script.Pi.parse_of_reads ctx initial cut
    (fun v _ => Encoder.newline_not_mem_value e v) (.of_forall each) begins
  obtain ⟨copies, serial', run, rest⟩ := evalTrees_rebuild host (inside host m.levels)
    m.session.ambient rights m rfl
  have evaluated :
      eval host (.sequence trees) m = .ok () ((m.numbered serial').pushAll copies) := by
    change evalTree host _ (.call .sequence trees) _ _ = _
    rw [evalTree]
    exact run
  refine ⟨.sequence trees, next, parsed, (m.numbered serial').pushAll copies, copies, ?_, ?_, rest⟩
  · rw [runScript, evaluated]
  · simp [Session.values, Machine.pushAll, Machine.numbered]

/-- A type of pairs of anything. -/
def WireType.pair : WireType where
  name := "Pair"
  kind := ⟨"Pair", "Pair"⟩
  decode
    | [a, b] => .ok [a, b]
    | values => .error ("expected 2 components, got " ++ toString values.length)

theorem WireType.pair_restores (a b : Value) : WireType.pair.Restores [a, b] := by
  intro given copies
  cases copies with
  | cons first rest =>
      cases rest with
      | cons second rest =>
          cases rest
          exact ⟨_, rfl, .cons first (.cons second .nil)⟩

/-- A session without objects that can be called, on whose stack there is one value. -/
def readerOfPairs : Machine Unit :=
  ⟨{ Session.new (Registry.empty.register .pair) 0 with stack := [.int 1] }, .new ()⟩

theorem reply_rebuilds_pairs : ∃ tree next,
    Script.parse .pi ⟨fun _ => false, Registry.empty.register .pair⟩
        (Encoder.script (.plain (Registry.empty.register .pair))
          [.str "a\nb", .handle ⟨"Pair", "Pair"⟩ 4 [.list [.int Int64.minValue, .bool true],
            .handle ⟨"Pair", "Pair"⟩ 5 [.int (-3), .list []]]]) 0 = .ok (tree, next) ∧
      ∃ m' copies,
        runScript ⟨fun _ o => o.typeName, fun _ _ _ => none, fun _ _ _ => .stuck⟩ tree
            readerOfPairs = .ok () m' ∧
          m'.session.values = readerOfPairs.session.values ++ copies ∧
          List.Forall₂ Value.Copies copies
            [.str "a\nb", .handle ⟨"Pair", "Pair"⟩ 4 [.list [.int Int64.minValue, .bool true],
              .handle ⟨"Pair", "Pair"⟩ 5 [.int (-3), .list []]]] := by
  have spells := Registry.spells_of_registered .empty .pair (List.forall_mem_nil _)
  have named : IsVariable WireType.pair.name := by decide
  refine reply_rebuilds ⟨fun _ o => o.typeName, fun _ _ _ => none, fun _ _ _ => .stuck⟩
    readerOfPairs (fun _ => false) Object.typeName _ ?_ (by decide) 0
  simp only [Value.ArePortable, Value.IsPortable, and_true, true_and]
  exact ⟨⟨.pair, spells, named, WireType.pair_restores _ _⟩,
    ⟨.pair, spells, named, WireType.pair_restores _ _⟩⟩

end PeerScript
