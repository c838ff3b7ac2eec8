import PeerScript.Proofs.Printing.Inverse
import PeerScript.Proofs.Unbound.Networks

/-!
# New servers

The shorthands of a server are the only functions in its global scope.  They bind no names, and
those that they use are bound there before them.  So the global scope offers nothing but functions
that find their names.
-/

set_option autoImplicit false

namespace PeerScript

open Script.Rho (Expression Statement)

/-! ## Global scopes -/

namespace Store

variable {s : Store} {v : Value}

/-- A scope with nothing above it, in which all functions find their names. -/
structure Serves (s : Store) : Prop where
  nonempty : 0 < s.frames.size
  top : s.parent? 0 = none
  offers : ∀ name v, s.local? 0 name = some v → s.Offers v

theorem Offers.widens {t : Store} (h : s.Offers v) (nonempty : 0 < s.frames.size)
    (widens : s.Widens t) :
    t.Offers v :=
  ⟨h.homeless, h.source, fun name mem => widens.contains nonempty (h.free name mem)⟩

/-- What is no function needs no names. -/
theorem offers_of_flat (s : Store) (flat : ∀ params body home, v ≠ .closure params body home) :
    s.Offers v where
  homeless params body f := flat params body (some f)
  source params body home same := absurd same (flat params body home)
  free name mem := by
    cases v with
    | closure params body home => exact absurd rfl (flat params body home)
    | _ => exact nomatch mem

namespace Serves

theorem set (h : s.Serves) (name : String) (offer : s.Offers v) : (s.set 0 name v).Serves where
  nonempty := (size_set v).symm ▸ h.nonempty
  top := (parent?_set v).trans h.top
  offers other w found := by
    have widens := s.widens_set 0 name v
    rw [local?_set h.nonempty] at found
    split at found
    · cases found
      exact offer.widens h.nonempty widens
    · exact (h.offers other w found).widens h.nonempty widens

theorem setAll (h : s.Serves) (bindings : List (String × Value)) (flat : ∀ b ∈ bindings,
    ∀ params body home, b.2 ≠ .closure params body home) : (s.setAll 0 bindings).Serves := by
  induction bindings generalizing s with
  | nil => exact h
  | cons b rest ih =>
      obtain ⟨first, others⟩ := List.forall_mem_cons.mp flat
      exact ih (h.set b.1 (s.offers_of_flat first)) others

end Serves

theorem contains_set (nonempty : 0 < s.frames.size) (name : String) (v : Value) :
    (s.set 0 name v).contains 0 name = true := by
  refine contains_iff_local?.mpr ⟨0, mem_chain_self _ _, ?_⟩
  rw [local?_set nonempty, if_pos rfl]
  rfl

end Store

namespace Service.Server

open Store (Serves)

/-! ## Shorthands -/

variable {registry : Registry} {bootstrap : Bootstrap} {state state' : Store × Nat}
  {name text : String}

/-- Binding a shorthand keeps the names in view that were, and brings its own. -/
structure Brings (s t : Store) (name : String) : Prop where
  serves : t.Serves
  brought : t.contains 0 name = true
  still : ∀ other, s.contains 0 other = true → t.contains 0 other = true

/-- A shorthand that binds nothing finds the names that it uses. -/
theorem brings_shorthand (h : state.1.Serves) (e : Expression)
    (lexes : Script.Lexes text.toList (e.tokens ++ [.finish]))
    (written : e.IsWritten ⟨state.1.contains 0, registry⟩) (plain : e.tree.defines = [])
    (bound : bindShorthand registry 0 state (name, text) = .ok state') :
    Brings state.1 state'.1 name := by
  obtain ⟨body, parsed, store⟩ := body_of_bindShorthand bound
  have whole : Statement.AreWritten ⟨state.1.contains 0, registry⟩ [.run e] := by
    rw [Statement.AreWritten, Statement.AreWritten, Statement.IsWritten]
    exact ⟨written, trivial⟩
  have cut : Script.Lexes text.toList
      (Script.Rho.separated (Statement.allTokens [.run e]) ++ [.finish]) := by
    simpa [Statement.allTokens, Script.Rho.separated] using lexes
  have body_eq : body = .sequence [e.tree] := by
    rcases Nat.lt_or_ge Script.nestingLimit (Statement.deepest [.run e]) with deep | fits
    · obtain ⟨place, refused⟩ := (parse_of_lexes whole cut state.2).2 deep
      cases refused.symm.trans parsed
    · have read := (parse_of_lexes whole cut state.2).1 fits
      rw [Statement.trees, Statement.trees, Statement.tree] at read
      exact (Prod.mk.inj (Except.ok.inj (read.symm.trans parsed))).1.symm
  have offer : state.1.Offers (.closure [] body none) := by
    obtain ⟨source, free⟩ := Script.parse_settles parsed
    refine ⟨by rintro _ _ _ ⟨⟩, ?_, fun other mem => ?_⟩
    · rintro _ _ _ ⟨⟩
      exact source
    · rw [Value.free, List.mem_filter] at mem
      refine (free other mem.1).resolve_right fun defined => ?_
      rw [body_eq, Tree.sequence, Tree.defines, Tree.definesAll, Tree.definesAll, plain] at defined
      cases defined
  rw [store]
  exact ⟨h.set name offer, Store.contains_set h.nonempty name _,
    fun other known => (state.1.widens_set 0 name _).contains h.nonempty known⟩

/-! ## The texts of the shorthands -/

/-- The call of a function without arguments. -/
def calling (segments : List String) : Expression := .call ⟨segments⟩ []

/-- What `connect` stands for. -/
def connecting (bootstrap : Bootstrap) : Expression :=
  .call ⟨[peerName, "Connect"]⟩ [.str bootstrap.host, .int (.ofNat bootstrap.port)]

/-- What `join` stands for. -/
def joining : Expression :=
  .call ⟨["assert"]⟩ [.binary .and (calling ["connect"]) (calling ["enter"])]

theorem cutsInto_path {path : Path} (spelled : path.IsSpelled) :
    Encoder.CutsInto (fun rest => rest.head? = some '(') path.render.toList
      (Encoder.pathTokens path) := by
  intro rest more opens cut
  refine Encoder.lexes_path spelled (fun c first => ?_) cut
  rw [opens] at first
  cases first
  decide

theorem cutsInto_calling {segments : List String} (spelled : Path.IsSpelled ⟨segments⟩) :
    Encoder.CutsInto (fun _ => True) (Encoder.applied (Path.mk segments).render.toList [])
      (calling segments).tokens := by
  intro rest more _ cut
  have none : ∀ x ∈ ([] : List (List Char × List Script.Token)),
      Encoder.CutsInto Encoder.Apart x.1 x.2 := nofun
  have whole := Encoder.lexes_applied (cutsInto_path spelled) none cut
  rw [calling, Expression.tokens, Expression.allTokens]
  exact whole

theorem lexes_calling {segments : List String} (spelled : Path.IsSpelled ⟨segments⟩) {text : String}
    (written : text.toList = Encoder.applied (Path.mk segments).render.toList []) :
    Script.Lexes text.toList ((calling segments).tokens ++ [.finish]) := by
  have whole := cutsInto_calling spelled trivial Script.Lexes.nil
  rwa [List.append_nil, ← written] at whole

theorem lexes_connecting (small : bootstrap.port < 65536) : Script.Lexes
    ("peer.Connect(" ++ (Encoder.plain registry).encode (.str bootstrap.host) ++ ", " ++
      toString bootstrap.port ++ ")").toList ((connecting bootstrap).tokens ++ [.finish]) := by
  have natural : ¬ (Int64.ofNat bootstrap.port).toInt < 0 := by
    rw [Int64.toInt_ofNat_of_lt (by omega)]
    omega
  have spelled : Path.IsSpelled ⟨[peerName, "Connect"]⟩ := ⟨by decide, by decide +kernel⟩
  have parts :
      ∀ part ∈ [(Text.Quoted.quote bootstrap.host.toList, [Script.Token.str bootstrap.host]),
      (Nat.toDigits 10 bootstrap.port, [Script.Token.int (.ofNat bootstrap.port)])],
      Encoder.CutsInto Encoder.Apart part.1 part.2 := by
    refine List.forall_mem_cons.mpr
      ⟨fun _ cut => ?_, List.forall_mem_singleton.mpr fun apart cut => ?_⟩
    · have quoted := Script.Lexes.quote bootstrap.host.toList cut
      rwa [String.ofList_toList] at quoted
    · exact Script.Lexes.digits (by omega) apart.endsWord apart.noPoint cut
  have whole := Encoder.lexes_applied (cutsInto_path spelled) parts Script.Lexes.nil
  have text : ("peer.Connect(" ++ (Encoder.plain registry).encode (.str bootstrap.host) ++ ", " ++
      toString bootstrap.port ++ ")").toList =
      Encoder.applied (Path.mk [peerName, "Connect"]).render.toList
        [Text.Quoted.quote bootstrap.host.toList, Nat.toDigits 10 bootstrap.port] := by
    simp [Encoder.encode, Encoder.value, Encoder.applied, Path.render, peerName]
  rw [text, connecting, Expression.tokens, Expression.allTokens, Expression.allTokens,
    Expression.allTokens, Expression.tokens, Expression.tokens, if_neg natural]
  simpa using whole

theorem lexes_joining :
    Script.Lexes "assert(connect() && enter())".toList (joining.tokens ++ [.finish]) := by
  have connect : Path.IsSpelled ⟨["connect"]⟩ := ⟨by decide, by decide +kernel⟩
  have enter : Path.IsSpelled ⟨["enter"]⟩ := ⟨by decide, by decide +kernel⟩
  have spelled : Path.IsSpelled ⟨["assert"]⟩ := ⟨by decide, by decide +kernel⟩
  have part : ∀ part ∈ [("connect() && enter()".toList,
      (Expression.binary .and (calling ["connect"]) (calling ["enter"])).tokens)],
      Encoder.CutsInto Encoder.Apart part.1 part.2 := by
    refine List.forall_mem_singleton.mpr fun apart cut => ?_
    have right :=
      Script.Lexes.solid .and rfl (Script.Lexes.space (cutsInto_calling enter trivial cut))
    exact cutsInto_calling connect trivial (Script.Lexes.space right)
  have whole := Encoder.lexes_applied (cutsInto_path spelled) part Script.Lexes.nil
  rw [joining, Expression.tokens, Expression.allTokens, Expression.allTokens]
  exact whole

/-! ## The global scope -/

theorem serves_globalsOf (i : Nat) :
    (globalsOf i).Serves ∧ (globalsOf i).contains 0 peerName = true ∧
    (globalsOf i).contains 0 "assert" = true := by
  have blank : (Store.empty.alloc none).1.Serves := by
    refine ⟨Nat.one_pos, rfl, fun name v found => ?_⟩
    change [].lookup name = some v at found
    exact nomatch found
  have installed : (Builtin.install (Store.empty.alloc none).1 0).Serves := by
    refine blank.setAll _ fun b mem => ?_
    obtain ⟨builtin, -, rfl⟩ := List.mem_map.mp mem
    exact nofun
  have asserting : (Builtin.install (Store.empty.alloc none).1 0).contains 0 "assert" = true := by
    refine Store.contains_iff_local?.mpr
      ⟨0, Store.mem_chain_self _ _, Store.names_setAll Nat.one_pos ?_⟩
    exact List.mem_map.mpr ⟨_, List.mem_map.mpr ⟨.assert, by decide, rfl⟩, rfl⟩
  have flat : ∀ name params body home, Value.object ⟨name, i⟩ ≠ .closure params body home :=
    fun _ _ _ _ => nofun
  have peer := installed.set peerName (Store.offers_of_flat _ (flat peerName))
  have first := Store.widens_set (Builtin.install (Store.empty.alloc none).1 0) 0 peerName
    (.object ⟨peerName, i⟩)
  have second := Store.widens_set ((Builtin.install (Store.empty.alloc none).1 0).set 0 peerName
    (.object ⟨peerName, i⟩)) 0 serverName (.object ⟨serverName, i⟩)
  refine ⟨peer.set serverName (Store.offers_of_flat _ (flat serverName)), ?_, ?_⟩
  · exact second.contains peer.nonempty (Store.contains_set installed.nonempty _ _)
  · exact second.contains peer.nonempty (first.contains installed.nonempty asserting)

theorem bound_of_folded {shorthand : String × String} {rest : List (String × String)}
    (folded : (shorthand :: rest).foldlM (bindShorthand registry 0) state = .ok state') :
    ∃ next, bindShorthand registry 0 state shorthand = .ok next ∧
      rest.foldlM (bindShorthand registry 0) next = .ok state' := by
  rw [List.foldlM_cons] at folded
  cases bound : bindShorthand registry 0 state shorthand with
  | error fault =>
      rw [bound] at folded
      exact nomatch folded
  | ok next =>
      rw [bound] at folded
      exact ⟨next, rfl, folded⟩

/-- Each shorthand finds what it uses, `join` the two that stand in front of it. -/
theorem serves_of_shorthands (small : bootstrap.port < 65536) (h : state.1.Serves)
    (peer : state.1.contains 0 peerName = true) (asserting : state.1.contains 0 "assert" = true)
    (folded : (shorthands registry bootstrap).foldlM (bindShorthand registry 0) state =
      .ok state') :
    state'.1.Serves := by
  have connectPath : Path.IsSpelled ⟨[peerName, "Connect"]⟩ := ⟨by decide, by decide +kernel⟩
  have enterPath : Path.IsSpelled ⟨[peerName, "Enter"]⟩ := ⟨by decide, by decide +kernel⟩
  have leavePath : Path.IsSpelled ⟨[peerName, "Leave"]⟩ := ⟨by decide, by decide +kernel⟩
  have assertPath : Path.IsSpelled ⟨["assert"]⟩ := ⟨by decide, by decide +kernel⟩
  have connect : Path.IsSpelled ⟨["connect"]⟩ := ⟨by decide, by decide +kernel⟩
  have enter : Path.IsSpelled ⟨["enter"]⟩ := ⟨by decide, by decide +kernel⟩
  have port : Int64.ofNat bootstrap.port ≠ Int64.minValue := by
    intro same
    have value := congrArg Int64.toInt same
    rw [Int64.toInt_ofNat_of_lt (by omega)] at value
    simp at value
  rw [shorthands] at folded
  obtain ⟨first, bound, folded⟩ := bound_of_folded folded
  have one := brings_shorthand h (connecting bootstrap) (lexes_connecting small)
    (by simpa [connecting, Expression.AreWritten, port] using ⟨connectPath, by decide, peer⟩)
    rfl bound
  obtain ⟨second, bound, folded⟩ := bound_of_folded folded
  have two :=
    brings_shorthand one.serves (calling [peerName, "Enter"]) (lexes_calling enterPath rfl)
    (by simpa [calling, Expression.AreWritten] using ⟨enterPath, by decide, one.still _ peer⟩)
    rfl bound
  obtain ⟨third, bound, folded⟩ := bound_of_folded folded
  have three := brings_shorthand two.serves joining lexes_joining
    (by simpa [joining, calling, Expression.AreWritten, Operator.arity] using
      ⟨⟨assertPath, by decide, two.still _ (one.still _ asserting)⟩,
        ⟨connect, by decide, two.still _ one.brought⟩, ⟨enter, by decide, two.brought⟩⟩)
    rfl bound
  obtain ⟨fourth, bound, folded⟩ := bound_of_folded folded
  have four :=
    brings_shorthand three.serves (calling [peerName, "Leave"]) (lexes_calling leavePath rfl)
    (by simpa [calling, Expression.AreWritten] using
      ⟨leavePath, by decide, three.still _ (two.still _ (one.still _ peer))⟩)
    rfl bound
  cases folded
  exact four.serves

/-- No session has run on a new server, and its global scope offers functions that find their
names. -/
theorem isOrderly_of_new {settings : Settings} {i : Nat} {s : Server}
    (small : settings.bootstrap.port < 65536) (made : Server.new settings registry i = .ok s) :
    s.IsOrderly i := by
  obtain ⟨globals, -, idle, -, -, serial, folded⟩ := store_of_new made
  obtain ⟨start, peer, asserting⟩ := serves_globalsOf i
  have serves := serves_of_shorthands small start peer asserting folded
  exact {
    owns := Network.owns_new made
    globals := globals
    nonempty := serves.nonempty
    top := serves.top
    offers := serves.offers
    rooms := by rw [idle]; exact nofun
    apart := by rw [idle]; exact nofun
    rests := by rw [idle]; exact nofun }

end Service.Server

end PeerScript
