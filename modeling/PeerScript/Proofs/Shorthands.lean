import Mathlib
import PeerScript.Proofs.Globals
import PeerScript.Proofs.Homes
import PeerScript.Proofs.Printing.Inverse

/-!
# The shorthands of a new server

A server writes the address that `connect` leads to into the text of a script, and reads that text
when it is made.  Whatever the address and the registered types are, the text is read, and as the
one call that was meant: quotation marks in the host do not end the quoted text, and no registered
type takes the place of a name that is called.
-/

set_option autoImplicit false

namespace PeerScript.Service

open Script (Token Symbol Context Lexes)
open Script.Rho (Expression Statement IsVisible separated listed keyword)
open Encoder (pathTokens appliedTokens Apart CutsInto)

variable {store : Store} {registry : Registry} {serial : Nat}

/-! ## Calls as they are written -/

/-- The call that the address of a bootstrap stands for. -/
def connecting (bootstrap : Bootstrap) : Expression :=
  .call ⟨["peer", "Connect"]⟩ [.str bootstrap.host, .int (.ofNat bootstrap.port)]

/-- A call without arguments. -/
def calling (path : Path) : Expression := .call path []

/-- The call that connects and then enters, and fails unless both have worked. -/
def joining : Expression :=
  .call ⟨["assert"]⟩ [.binary .and (calling ⟨["connect"]⟩) (calling ⟨["enter"]⟩)]

theorem lexes_calling (path : Path) (spelled : path.IsSpelled) {rest : List Char}
    {more : List Token} (cut : Lexes rest more) :
    Lexes (path.render.toList ++ '(' :: ')' :: rest) ((calling path).tokens ++ more) := by
  have close : Lexes (')' :: rest) (.symbol .rParen :: more) := Lexes.solid .rParen rfl cut
  have whole :=
    Encoder.lexes_path spelled (Encoder.endsWord_cons (by decide)) (Lexes.solid .lParen rfl close)
  simpa [calling, appliedTokens, Expression.allTokens, Symbol.spelling] using whole

theorem toList_toString (n : Nat) : (toString n).toList = Nat.toDigits 10 n := by
  rw [Nat.toString_eq_repr, Nat.toList_repr]

theorem toInt_ofNat_of_lt {n : Nat} (small : n < 65536) : (Int64.ofNat n).toInt = n :=
  Int64.toInt_ofNat_of_lt (by omega)

/-- The text of a host ends where its quotation marks end, whatever its characters are. -/
theorem lexes_connecting (bootstrap : Bootstrap) (small : bootstrap.port < 65536) :
    Lexes ("peer.Connect(" ++ (Encoder.plain registry).encode (.str bootstrap.host) ++ ", " ++
      toString bootstrap.port ++ ")").toList ((connecting bootstrap).tokens ++ [.finish]) := by
  have close : Lexes [')'] [.symbol .rParen, .finish] := Lexes.solid .rParen rfl Lexes.nil
  have port : Lexes (Nat.toDigits 10 bootstrap.port ++ [')'])
      (.int (.ofNat bootstrap.port) :: [.symbol .rParen, .finish]) :=
    Lexes.digits (by omega) (Encoder.endsWord_cons (by decide)) (by decide) close
  have host := Lexes.quote bootstrap.host.toList (Lexes.solid .comma rfl (Lexes.space port))
  have path : (⟨["peer", "Connect"]⟩ : Path).IsSpelled := ⟨by decide, by decide⟩
  have whole :=
    Encoder.lexes_path path (Encoder.endsWord_cons (by decide)) (Lexes.solid .lParen rfl host)
  have positive : ¬ (Int64.ofNat bootstrap.port).toInt < 0 := by
    rw [toInt_ofNat_of_lt small]
    omega
  have text : ("peer.Connect(" ++ (Encoder.plain registry).encode (.str bootstrap.host) ++ ", " ++
      toString bootstrap.port ++ ")").toList =
      (⟨["peer", "Connect"]⟩ : Path).render.toList ++ ('(' ::
        (Text.Quoted.quote bootstrap.host.toList ++
          ',' :: ' ' :: (Nat.toDigits 10 bootstrap.port ++ [')']))) := by
    have opening : "peer.Connect(".toList = (⟨["peer", "Connect"]⟩ : Path).render.toList ++
        ['('] := by cbv
    simp only [String.toList_append, opening, toList_toString, Encoder.encode, Encoder.value,
      String.toList_ofList]
    simp
  have tokens : (connecting bootstrap).tokens ++ [.finish] = pathTokens ⟨["peer", "Connect"]⟩ ++
      .symbol .lParen :: .str (String.ofList bootstrap.host.toList) :: .symbol .comma ::
        .int (.ofNat bootstrap.port) :: [.symbol .rParen, .finish] := by
    simp only [connecting, Expression.tokens, Expression.allTokens, if_neg positive, appliedTokens,
      String.ofList_toList, List.append_assoc]
    rfl
  rw [text, tokens]
  exact whole

theorem lexes_joining :
    Lexes "assert(connect() && enter())".toList (joining.tokens ++ [.finish]) := by
  have close : Lexes [')'] [.symbol .rParen, .finish] := Lexes.solid .rParen rfl Lexes.nil
  have enter := lexes_calling ⟨["enter"]⟩ ⟨by decide, by decide⟩ close
  have both := lexes_calling ⟨["connect"]⟩ ⟨by decide, by decide⟩
    (Lexes.space (Lexes.solid .and rfl (Lexes.space enter)))
  have path : (⟨["assert"]⟩ : Path).IsSpelled := ⟨by decide, by decide⟩
  have whole :=
    Encoder.lexes_path path (Encoder.endsWord_cons (by decide)) (Lexes.solid .lParen rfl both)
  have text : "assert(connect() && enter())".toList = (⟨["assert"]⟩ : Path).render.toList ++ ('(' ::
      ((⟨["connect"]⟩ : Path).render.toList ++ '(' :: ')' :: ' ' :: '&' :: '&' :: ' ' ::
        ((⟨["enter"]⟩ : Path).render.toList ++ ['(', ')', ')']))) := by cbv
  rw [text]
  exact whole

/-! ## Binding them -/

/-- A call without arguments can be written where the root of its path is bound. -/
theorem written_calling {ctx : Context} {path : Path} (visible : IsVisible ctx path) :
    (calling path).IsWritten ctx := by
  rw [calling, Expression.IsWritten, Expression.AreWritten]
  exact ⟨visible, trivial⟩

/-- A shorthand that is written with bound names is bound to a function of the tree that is
meant. -/
theorem bindShorthand_eq {e : Expression} {name source : String}
    (written : e.IsWritten ⟨store.contains 0, registry⟩)
    (lexes : Lexes source.toList (e.tokens ++ [.finish]))
    (shallow : e.nesting < Script.nestingLimit) :
    Server.bindShorthand registry 0 (store, serial) (name, source) =
      .ok (store.set 0 name (.closure [] (.sequence [e.tree]) none), serial) := by
  have statement : Statement.AreWritten ⟨store.contains 0, registry⟩ [.run e] := by
    rw [Statement.AreWritten, Statement.IsWritten, Statement.AreWritten]
    exact ⟨written, trivial⟩
  have tokens : separated (Statement.allTokens [.run e]) = e.tokens := by
    rw [Statement.allTokens, Statement.allTokens, Statement.tokens]
    exact List.intercalate_singleton
  have parsed := (parse_of_lexes statement (tokens ▸ lexes) serial).1 (by
    rw [Statement.deepest, Statement.deepest, Statement.nesting]
    omega)
  rw [Server.bindShorthand]
  dsimp only
  rw [parsed]
  rfl

/-- The only frame that names are looked up in is the global scope itself. -/
structure IsRoot (store : Store) : Prop where
  nonempty : 0 < store.frames.size
  parent : store.parent? 0 = none

namespace IsRoot

variable (root : IsRoot store)

include root

theorem set (name : String) (v : Value) : IsRoot (store.set 0 name v) :=
  ⟨by rw [Store.size_set]; exact root.nonempty, (Store.parent?_set v).trans root.parent⟩

theorem local?_set (name other : String) (v : Value) :
    (store.set 0 name v).local? 0 other = if other = name then some v else store.local? 0 other :=
  Store.local?_set root.nonempty name other v

theorem visible {path : Path} (spelled : path.IsSpelled)
    (plain : path.root ≠ "true" ∧ path.root ≠ "false" ∧ path.root ≠ keyword)
    (bound : (store.local? 0 path.root).isSome = true) :
    IsVisible ⟨store.contains 0, registry⟩ path := by
  refine ⟨spelled, plain, ?_⟩
  change store.contains 0 path.root = true
  rw [Store.contains_eq, Store.get?_of_chain (Store.chain_of_none root.parent), List.findSome?_cons]
  cases found : store.local? 0 path.root with
  | none => exact nomatch found ▸ bound
  | some v => rfl

/-- Where `peer` is bound, `connect` is bound to the call with the configured address. -/
theorem bind_connect (peer : (store.local? 0 "peer").isSome = true) {bootstrap : Bootstrap}
    (small : bootstrap.port < 65536) :
    Server.bindShorthand registry 0 (store, serial) ("connect", "peer.Connect(" ++
        (Encoder.plain registry).encode (.str bootstrap.host) ++ ", " ++
    toString bootstrap.port ++ ")") =
      .ok (store.set 0 "connect" (.closure [] (.sequence [(connecting bootstrap).tree]) none),
        serial) := by
  have port := toInt_ofNat_of_lt small
  refine bindShorthand_eq ?_ (lexes_connecting bootstrap small) ?_
  · simp only [connecting, Expression.IsWritten, Expression.AreWritten, and_true, true_and]
    refine ⟨root.visible ⟨by decide, by decide⟩ (by decide) peer, fun least => ?_⟩
    rw [least] at port
    exact nomatch port
  · simp only [connecting, Expression.nesting, Expression.deepest,
      if_neg (show ¬ (Int64.ofNat bootstrap.port).toInt < 0
      by omega)]
    decide

/-- A call without arguments can be bound where the root of its path is bound. -/
theorem bind_calling {path : Path} (spelled : path.IsSpelled)
    (plain : path.root ≠ "true" ∧ path.root ≠ "false" ∧ path.root ≠ keyword)
    (bound : (store.local? 0 path.root).isSome = true) {name source : String}
    (shape : source.toList = path.render.toList ++ ['(', ')']) :
    Server.bindShorthand registry 0 (store, serial) (name, source) =
      .ok (store.set 0 name (.closure [] (.sequence [(calling path).tree]) none), serial) := by
  refine bindShorthand_eq ?_ ?_ ?_
  · rw [calling, Expression.IsWritten, Expression.AreWritten]
    exact ⟨root.visible spelled plain bound, trivial⟩
  · rw [shape]
    exact lexes_calling path spelled Lexes.nil
  · rw [calling, Expression.nesting, Expression.deepest]
    decide

/-- Where `assert`, `connect` and `enter` are bound, `join` is bound to the call that asserts
both. -/
theorem bind_join (assert : (store.local? 0 "assert").isSome = true)
    (connect : (store.local? 0 "connect").isSome = true)
    (enter : (store.local? 0 "enter").isSome = true) :
    Server.bindShorthand registry 0 (store, serial) ("join", "assert(connect() && enter())") =
      .ok (store.set 0 "join" (.closure [] (.sequence [joining.tree]) none), serial) := by
  refine bindShorthand_eq ?_ lexes_joining (by decide)
  simp only [joining, calling, Expression.IsWritten, Expression.AreWritten, and_true]
  refine ⟨?_, rfl, ?_, ?_⟩
  · exact root.visible ⟨by decide, by decide⟩ (by decide) assert
  · exact root.visible ⟨by decide, by decide⟩ (by decide) connect
  · exact root.visible ⟨by decide, by decide⟩ (by decide) enter

end IsRoot

/-- The global scope with the shorthands for an address. -/
def withShorthands (store : Store) (bootstrap : Bootstrap) : Store :=
  (((store.set 0 "connect" (.closure [] (.sequence [(connecting bootstrap).tree]) none)).set
    0 "enter" (.closure [] (.sequence [(calling ⟨["peer", "Enter"]⟩).tree]) none)).set 0 "join"
    (.closure [] (.sequence [joining.tree]) none)).set 0 "leave"
    (.closure [] (.sequence [(calling ⟨["peer", "Leave"]⟩).tree]) none)

/-- What a shorthand binds is in view in those behind it. -/
theorem IsRoot.bind_shorthands (root : IsRoot store) (peer : (store.local? 0 "peer").isSome = true)
    (assert : (store.local? 0 "assert").isSome = true) {bootstrap : Bootstrap}
    (small : bootstrap.port < 65536) :
    (Server.shorthands registry bootstrap).foldlM (Server.bindShorthand registry 0)
    (store, serial) = .ok (withShorthands store bootstrap, serial) := by
  have connected := root.set "connect" (.closure [] (.sequence [(connecting bootstrap).tree]) none)
  have entered :=
    connected.set "enter" (.closure [] (.sequence [(calling ⟨["peer", "Enter"]⟩).tree]) none)
  have joined := entered.set "join" (.closure [] (.sequence [joining.tree]) none)
  have path : ∀ name, Script.IsName name → (⟨["peer", name]⟩ : Path).IsSpelled := fun name named =>
    ⟨by simp, by simpa using ⟨by decide, named⟩⟩
  have peer' : ∀ name v, name ≠ "peer" → ∀ {s : Store}, IsRoot s →
      (s.local? 0 "peer").isSome = true → ((s.set 0 name v).local? 0 "peer").isSome = true := by
    intro name v other s root bound
    rwa [root.local?_set, if_neg other.symm]
  have connect : Server.bindShorthand registry 0 (store, serial) _ = _ :=
    root.bind_connect peer small
  have enter : Server.bindShorthand registry 0 (_, serial) ("enter", "peer.Enter()") = _ :=
    connected.bind_calling (path "Enter" (by decide)) (by decide)
      (peer' _ _ (by decide) root peer) (by decide)
  have join : Server.bindShorthand registry 0 (_, serial) _ = _ := entered.bind_join
    (by simp [connected.local?_set, root.local?_set, assert])
    (by simp [connected.local?_set, root.local?_set])
    (by simp [connected.local?_set])
  have leave : Server.bindShorthand registry 0 (_, serial) ("leave", "peer.Leave()") = _ :=
    joined.bind_calling (path "Leave" (by decide)) (by decide)
      (peer' _ _ (by decide) entered
        (peer' _ _ (by decide) connected (peer' _ _ (by decide) root peer))) (by decide)
  have step : ∀ {state state' last : Store × Nat} {shorthand : String × String}
      {rest : List (String × String)},
      Server.bindShorthand registry 0 state shorthand = .ok state' →
      rest.foldlM (Server.bindShorthand registry 0) state' = .ok last →
      (shorthand :: rest).foldlM (Server.bindShorthand registry 0) state = .ok last := by
    intro state state' last shorthand rest bound folded
    rw [List.foldlM_cons, bound]
    exact folded
  exact step connect (step enter (step join (step leave rfl)))

/-- A new server has the builtins, its own objects and the shorthands, and nothing else. -/
theorem new_shorthands (settings : Settings) (registry : Registry) (number : Nat)
    (small : settings.bootstrap.port < 65536) :
    ∃ s, Server.new settings registry number = .ok s ∧ s.globals = 0 ∧
      s.store = withShorthands (globalsOf number) settings.bootstrap := by
  have global := globalsOf_global number
  have folded : (Server.shorthands registry settings.bootstrap).foldlM
      (Server.bindShorthand registry 0) (_, 0) = _ :=
    IsRoot.bind_shorthands ⟨global.nonempty, global.parent⟩ (by rfl) (by rfl) small
  unfold Server.new
  change ∃ s,
    ((Server.shorthands registry settings.bootstrap).foldlM (Server.bindShorthand registry 0)
    (globalsOf number, 0) >>= _) = _ ∧ _
  rw [folded]
  exact ⟨_, rfl, rfl, rfl⟩

/-- Every server that is made has its shorthands: `connect` calls the peer with exactly the
configured address, and the others are the same whatever the settings and the registered types
are. -/
theorem shorthands_bound (settings : Settings) (registry : Registry) (number : Nat)
    (small : settings.bootstrap.port < 65536) :
    ∃ s, Server.new settings registry number = .ok s ∧
      s.store.local? s.globals "connect" =
        some (.closure [] (.sequence [.invoke ⟨["peer", "Connect"]⟩
        [.literal (.str settings.bootstrap.host),
      .literal (.int (.ofNat settings.bootstrap.port))]]) none) ∧
      s.store.local? s.globals "enter" =
        some (.closure [] (.sequence [.invoke ⟨["peer", "Enter"]⟩ []]) none) ∧
      s.store.local? s.globals "join" = some (.closure [] (.sequence [.invoke ⟨["assert"]⟩
        [.op .and [.invoke ⟨["connect"]⟩ [], .invoke ⟨["enter"]⟩ []]]]) none) ∧
      s.store.local? s.globals "leave" =
        some (.closure [] (.sequence [.invoke ⟨["peer", "Leave"]⟩ []]) none) := by
  have root : IsRoot (globalsOf number) :=
    ⟨(globalsOf_global number).nonempty, (globalsOf_global number).parent⟩
  obtain ⟨s, made, globals, store⟩ := new_shorthands settings registry number small
  have connected :=
    root.set "connect" (.closure [] (.sequence [(connecting settings.bootstrap).tree]) none)
  have entered :=
    connected.set "enter" (.closure [] (.sequence [(calling ⟨["peer", "Enter"]⟩).tree]) none)
  have joined := entered.set "join" (.closure [] (.sequence [joining.tree]) none)
  refine ⟨s, made, ?_⟩
  simp only [globals, store, withShorthands, joined.local?_set, entered.local?_set,
    connected.local?_set, root.local?_set]
  exact ⟨rfl, rfl, rfl, rfl⟩

/-- An address that would close the quotation marks and go on with a call of its own. -/
def hostile : Bootstrap := ⟨"\\\", 1)\nserver.Stop() // ", 65535⟩

/-- Registered types of the names that the shorthands call. -/
def squatting : Registry :=
  ["peer", "connect", "enter", "assert"].foldl
    (fun r name => r.register { WireType.vector3 with name := name }) .empty

/-- Neither the address nor the registered types get into the shorthands in another way. -/
theorem shorthands_bound_hostile :
    hostile.port < 65536 ∧
    ∃ s, Server.new { (default : Settings) with bootstrap := hostile } squatting 3 = .ok s ∧
      s.store.local? s.globals "connect" =
        some (.closure [] (.sequence [.invoke ⟨["peer", "Connect"]⟩
        [.literal (.str "\\\", 1)\nserver.Stop() // "), .literal (.int 65535)]]) none) ∧
      s.store.local? s.globals "join" = some (.closure [] (.sequence [.invoke ⟨["assert"]⟩
        [.op .and [.invoke ⟨["connect"]⟩ [], .invoke ⟨["enter"]⟩ []]]]) none) := by
  have small : hostile.port < 65536 := by decide
  obtain ⟨s, made, connect, -, join, -⟩ :=
    shorthands_bound { (default : Settings) with bootstrap := hostile } squatting 3 small
  exact ⟨small, s, made, connect, join⟩

end PeerScript.Service
