import PeerScript.Proofs.Isolation
import PeerScript.Proofs.Twins.Runs

/-!
# The two stack policies

A server that keeps the stack behind a reply and a server that clears it tell the same, as long as
no message looks at the stack or reaches the network: `policies_agree`.  The reply of the one is
what the other one has replied so far, as a script in which every reply that is not empty stands
once.

After each message the two sessions are twins again, over everything that was replied before and
over nothing.  What is left is that the text of a stack is made of the texts of its values one by
one, of which none is empty.
-/

set_option autoImplicit false

namespace PeerScript

open Service (Server Seat IsReserved IsGlobal)

/-! ## The text of a stack -/

namespace Number

theorem integer_ne_nil (n : Int) : integer n ≠ [] := by
  unfold integer
  split
  · exact List.cons_ne_nil _ _
  · exact Nat.toDigits_ne_nil

namespace Layout

theorem decimal_ne_nil (layout : Layout) (d : Decimal) : layout.decimal d ≠ [] := by
  have digits : Nat.toDigits 10 d.digits ≠ [] := Nat.toDigits_ne_nil
  unfold decimal
  dsimp only
  split
  · unfold placePoint
    split
    · exact List.cons_ne_nil _ _
    · split
      · simp [digits]
      · simp
  · unfold withExponent
    split
    · contradiction
    · exact List.cons_ne_nil _ _

theorem float_ne_nil (layout : Layout) (x : Float) : layout.float x ≠ [] := by
  unfold float
  split
  · decide
  · split <;> decide
  · rename_i mantissa exponent _
    have digits : (if mantissa = 0 then '0' :: layout.whole
        else layout.decimal (Binary64.shortest mantissa exponent)) ≠ [] := by
      split
      · exact List.cons_ne_nil _ _
      · exact layout.decimal_ne_nil _
    simp [digits]

end Layout

end Number

namespace Encoder

variable (e : Encoder)

/-- Every value is written with at least one character. -/
theorem encode_ne_empty (v : Value) : e.encode v ≠ "" := by
  have written : e.value v ≠ [] := by
    cases v with
    | bool b =>
        rw [value]
        cases b <;> decide
    | int i =>
        rw [value, integer]
        split
        · decide
        · exact Number.integer_ne_nil _
    | float x =>
        rw [value, float]
        split
        · exact Number.Layout.float_ne_nil _ _
        · exact List.cons_ne_nil _ _
    | handle kind serial fields =>
        rw [value]
        split
        · simp [applied]
        · exact List.cons_ne_nil _ _
    | _ =>
        rw [value]
        exact List.cons_ne_nil _ _
  intro empty
  exact written (String.ofList_eq_empty_iff.mp empty)

theorem script_eq (vs : List Value) : e.script vs = " ".intercalate (vs.map e.encode) := by
  rw [← String.toList_inj, String.toList_intercalate, script, String.toList_ofList, values_eq_map,
    List.map_map]
  congr 1
  exact List.map_congr_left fun v _ => String.toList_ofList.symm

end Encoder

/-- What several replies tell together. -/
def together (replies : List String) : String := " ".intercalate (replies.filter (· ≠ ""))

example : together ["1", "", "2"] = "1 2" := by cbv

theorem intercalate_eq_empty_iff {texts : List String} (written : ∀ s ∈ texts, s ≠ "") :
    " ".intercalate texts = "" ↔ texts = [] := by
  constructor
  · intro empty
    cases texts with
    | nil => rfl
    | cons first rest =>
        have chars := congrArg String.toList empty
        rw [String.toList_intercalate] at chars
        cases rest with
        | nil => exact absurd (by simpa using chars) (written first List.mem_cons_self)
        | cons second rest => simp [List.intercalate] at chars
  · rintro rfl
    exact String.intercalate_nil

/-- Texts that are put together in parts are put together as a whole. -/
theorem together_parts (parts : List (List String)) (written : ∀ part ∈ parts, ∀ s ∈ part, s ≠ "") :
    together (parts.map (" ".intercalate ·)) = " ".intercalate parts.flatten := by
  induction parts with
  | nil => rfl
  | cons part parts ih =>
      have mine := written part List.mem_cons_self
      have others := fun other mem => written other (List.mem_cons_of_mem part mem)
      have rest := ih others
      unfold together at rest ⊢
      rw [List.map_cons, List.flatten_cons]
      by_cases none : part = []
      · subst none
        rw [List.filter_cons_of_neg (by simp), rest, List.nil_append]
      · have shown : " ".intercalate part ≠ "" := fun empty =>
          none ((intercalate_eq_empty_iff mine).mp empty)
        rw [List.filter_cons_of_pos (by simpa using shown)]
        have each : ∀ s ∈ parts.flatten, s ≠ "" := fun s mem => by
          obtain ⟨other, among, mem⟩ := List.mem_flatten.mp mem
          exact others other among s mem
        have kept : ∀ s ∈ (parts.map (" ".intercalate ·)).filter (· ≠ ""), s ≠ "" := fun s mem => by
          simpa using (List.mem_filter.mp mem).2
        by_cases last : parts.flatten = []
        · have empty := (intercalate_eq_empty_iff kept).mp
            (rest.trans ((intercalate_eq_empty_iff each).mpr last))
          rw [empty, last, List.append_nil, String.intercalate_singleton]
        · have more : (parts.map (" ".intercalate ·)).filter (· ≠ "") ≠ [] := fun empty =>
            last ((intercalate_eq_empty_iff each).mp
              (rest.symm.trans ((intercalate_eq_empty_iff kept).mpr empty)))
          rw [String.intercalate_cons_of_ne_nil more, rest,
            String.intercalate_append_of_ne_nil none last]

/-! ## One message -/

section Message

variable {σ : Type} (host : Host σ) {place : Place} {ground ground' : Ground σ} {m m' : Machine σ}

theorem Tree.IsCalm.bare {t : Tree} (h : t.IsCalm) : t.bare.IsCalm where
  plain := h.plain.bare
  source := by
    unfold Tree.bare
    split
    · exact h.source.2.1
    · exact h.source

theorem isCalm_of_parse {language : Script.Language} {ctx : Script.Context} {text : String}
    {serial next : Nat} {t : Tree} (natural : ctx.registry.IsNatural)
    (avoids : Script.Avoids IsTelling text)
    (parsed : Script.parse language ctx text serial = .ok (t, next)) : t.IsCalm where
  plain := by
    have agrees : ctx.Agrees IsTelling ctx := ⟨fun _ _ => rfl, rfl, natural⟩
    have run := Script.parse_alike language agrees avoids Pairing.nothing_isOneToOne
      (Pairing.nothing_below serial serial)
    rw [parsed] at run
    cases run with
    | ok related =>
        obtain ⟨_, -, -, -, -, -, alike⟩ := related
        exact alike.diagonal
  source := (Script.parse_settles parsed).1

/-- A script runs in the ambient scope, and no invocation is under way. -/
theorem runScript_at {n : Machine σ} (t : Tree) {scope : FrameId}
    (ambient : n.session.ambient = scope) (rest : n.session.depth = 0) :
    runScript host t n = match evalTree host (inside host invocationLimit) t scope n with
      | .error (.failed fault) n => .error (.failed fault) (n.cut.push (marker fault))
      | other => other := by
  have levels : n.levels = invocationLimit := by
    rw [Machine.levels, rest]
    rfl
  rw [runScript_eq, evalIn, levels, ambient]
  rfl

/-- Twins handle a message in the same way. -/
theorem Twins.handled (language : Script.Language) {text : String}
    (avoids : Script.Avoids IsTelling text) (rest : place.depth = 0)
    (twins : Twins place ground ground' m m') :
    ∃ n n', Handled host language text m n ∧ Handled host language text m' n' ∧
      Twins place ground ground' n n' := by
  have same : translation language text m' = translation language text m := by
    unfold translation
    rw [twins.store, twins.serial, twins.ambient_eq.1, twins.ambient_eq.2, twins.registry_eq.1,
      twins.registry_eq.2]
  cases translated : translation language text m with
  | error fault =>
      exact ⟨_, _, .untranslated translated, .untranslated (same.trans translated),
        twins.push (bothFit_str _)⟩
  | ok result =>
      obtain ⟨tree, serial⟩ := result
      have natural : m.session.registry.IsNatural := twins.registry_eq.1 ▸ twins.natural
      have calm := (isCalm_of_parse natural avoids translated).bare
      have start := twins.numbered serial
      have enough : invocationLimit ≤ place.depth + invocationLimit := Nat.le_add_left _ _
      have ran := agreeing host invocationLimit calm List.mem_cons_self enough start
      have run := runScript_at host tree.bare start.ambient_eq.1 (start.depth_eq.1.trans rest)
      have run' := runScript_at host tree.bare start.ambient_eq.2 (start.depth_eq.2.trans rest)
      generalize evalTree host (inside host invocationLimit) tree.bare place.ambient
          (m.numbered serial) = x,
        evalTree host (inside host invocationLimit) tree.bare place.ambient
          (m'.numbered serial) = y at ran run run'
      cases ran with
      | ok twins _ =>
          exact ⟨_, _, .ran translated run, .ran (same.trans translated) run', twins⟩
      | failed fault twins =>
          have pushed := twins.push (bothFit_str fault.errorText)
          rw [← Machine.cut_eq (twins.depth_eq.1.trans rest),
            ← Machine.cut_eq (twins.depth_eq.2.trans rest)] at pushed
          exact ⟨_, _, .failed translated run, .failed (same.trans translated) run', pushed⟩

variable {host}

/-- The text of the stack of a machine, value by value. -/
def Session.pieces (s : Session) : List String := s.values.map (Encoder.plain s.registry).encode

/-- What is calm is written as it is without any objects. -/
theorem Machine.Tends.written_eq (h : m.Tends IsTelling Calm) :
    m.written host = " ".intercalate m.session.pieces := by
  rw [Machine.written, Encoder.script_eq, Session.pieces]
  congr 1
  refine List.map_congr_left fun v mem => ?_
  exact (h.stack v (List.mem_reverse.mp mem)).good.encode_eq rfl

end Message

/-! ## One session on two servers -/

namespace Service

/-- The same session on a server that keeps stacks, where its values are written as `told`, and on
one that clears them. -/
structure Server.Alongside (seat : Seat) (place : Place) (told : List String) (s t : Server) :
    Prop where
  language : t.settings.language = s.settings.language
  keeps : s.settings.stackPolicy = .accumulate
  clears : t.settings.stackPolicy = .consumeOnReply
  rest : place.depth = 0
  sessions : ∃ session session', s.idle.lookup seat = some session ∧
    t.idle.lookup seat = some session' ∧ session.pieces = told ∧
    ∀ world world' : Network, Twins place ⟨session.stack, world⟩ ⟨[], world'⟩
      ⟨session, (s.vacated seat).common world⟩ ⟨session', (t.vacated seat).common world'⟩

end Service

/-- Twins that have other servers around them, one of which has cleared its stack. -/
theorem Twins.reseated {σ : Type} {place : Place} {ground ground' : Ground σ} {m m' : Machine σ}
    (h : Twins place ground ground' m m') {c c' : Common σ} (store : c.store = m.common.store)
    (store' : c'.store = m'.common.store) (serial : c.serial = m.common.serial)
    (serial' : c'.serial = m'.common.serial) :
    Twins place ⟨m.session.stack, c.world⟩ ⟨[], c'.world⟩ ⟨m.session, c⟩
      ⟨(m'.withStack []).session, c'⟩ where
  shared := ⟨[], rfl, rfl⟩
  place_left := h.place_left
  place_right := h.place_right
  store := store'.trans (h.store.trans store.symm)
  serial := serial'.trans (h.serial.trans serial.symm)
  world_left := rfl
  world_right := rfl
  natural := h.natural
  left := h.left.narrowed rfl rfl (List.Subset.refl _) store
  right := by
    have cleared : (m'.withStack []).Tends IsTelling Calm :=
      h.right.withStack (List.forall_mem_nil _)
    exact cleared.narrowed rfl rfl (List.Subset.refl _) store'

/-- What a new session gets hold of is calm: the builtins, and what has a telling name. -/
theorem Service.Server.IsNew.tends {σ : Type} {s : Server} (new : s.IsNew) {c : Common σ}
    (store : c.store = (s.store.alloc (some s.globals)).1) :
    (⟨.new s.registry s.store.frames.size, c⟩ : Machine σ).Tends IsTelling Calm where
  owned f mem := by
    have only : f = s.store.frames.size := List.mem_singleton.mp mem
    change f < c.store.frames.size
    rw [store, only, Store.size_alloc]
    exact Nat.lt_succ_self _
  stack := nofun
  bound f kept name v shown found := by
    obtain ⟨o, owns, mem⟩ := Store.alive_iff.mp kept
    have only : o = s.store.frames.size := List.mem_singleton.mp owns
    subst only
    change f ∈ c.store.chain _ at mem
    change c.store.local? f name = some v at found
    have parent : c.store.parent? s.store.frames.size = some 0 := by
      rw [store, new.globals]
      exact Store.parent?_alloc _
    have root : c.store.parent? 0 = none := by
      rw [store, Store.parent?_congr (Store.frames_alloc_of_lt _ new.store.nonempty)]
      exact new.store.parent
    rw [Store.chain_of_some parent new.store.nonempty, Store.chain_of_none root, List.mem_cons,
      List.mem_singleton] at mem
    rw [store, Store.local?_alloc] at found
    rcases mem with rfl | rfl
    · exact absurd (Store.lt_of_local? found) (Nat.lt_irrefl _)
    · obtain ⟨before, after, split, -⟩ := List.lookup_eq_some_iff.mp found
      have among : (name, v) ∈ s.store.bindings 0 := by
        rw [split]
        exact List.mem_append_right before List.mem_cons_self
      obtain ⟨b, named, rfl⟩ := new.store.offers _ among fun reserved =>
        shown (List.mem_append_right _ reserved)
      have named : b.name = name := named
      have calm : (Value.native b).IsCalm := by
        refine ⟨.native b, ?_, nofun⟩
        rintro _ ⟨⟩
        cases looks : b.looksDown with
        | false => rfl
        | true => exact absurd (named ▸ Builtin.isTelling_name looks) shown
      exact ⟨Machine.houses_plain nofun, calm⟩

namespace Network

open Service.Server (Alongside)

variable (host : Host Network) {seat : Seat} {place : Place} {told : List String} {s t : Server}
  {n n' : Network} {i i' : Nat}

/-- Both servers reply to a message, the one with all that has been told so far. -/
theorem evaluate_alongside (along : Alongside seat place told s t) (found : n.servers[i]? = some s)
    (found' : n'.servers[i']? = some t) {text : String} (avoids : Script.Avoids IsTelling text) :
    ∃ part s' t', (∀ piece ∈ part, piece ≠ "") ∧ Alongside seat place (told ++ part) s' t' ∧
      (evaluate host n i seat text).1.servers[i]? = some s' ∧
      (evaluate host n' i' seat text).1.servers[i']? = some t' ∧
      (evaluate host n i seat text).2 = .ok (" ".intercalate (told ++ part)) ∧
      (evaluate host n' i' seat text).2 = .ok (" ".intercalate part) := by
  obtain ⟨session, session', idle, idle', rfl, twins⟩ := along.sessions
  have start := twins (n.modifyServer i fun _ => s.vacated seat)
    (n'.modifyServer i' fun _ => t.vacated seat)
  change Twins place _ _ (n.machineOf i s seat session) (n'.machineOf i' t seat session') at start
  obtain ⟨m, m', handled, handled', twins⟩ :=
    start.handled host s.settings.language avoids along.rest
  have registry : m.session.registry = session.registry ∧ m'.session.registry = session.registry :=
    ⟨twins.registry_eq.1.trans start.registry_eq.1.symm,
      twins.registry_eq.2.trans start.registry_eq.1.symm⟩
  obtain ⟨above, stack, stack'⟩ := twins.shared
  have pieces : m.session.pieces = session.pieces ++
      above.reverse.map (Encoder.plain session.registry).encode := by
    rw [Session.pieces, registry.1, Session.values, stack, List.reverse_append, List.map_append]
    rfl
  have pieces' : m'.session.pieces = above.reverse.map (Encoder.plain session.registry).encode := by
    rw [Session.pieces, registry.2, Session.values, stack', List.append_nil]
  have reply := answer_of_handled host _ text .accumulate handled
  have reply' := answer_of_handled host _ text .consumeOnReply handled'
  rw [twins.left.written_eq, pieces] at reply
  rw [twins.right.written_eq, pieces'] at reply'
  have replied : evaluate host n i seat text = (seatedAgain i seat m,
      .ok (" ".intercalate
        (session.pieces ++ above.reverse.map (Encoder.plain session.registry).encode))) := by
    rw [evaluate_eq host text found idle, along.keeps, reply]
    rfl
  have replied' : evaluate host n' i' seat text = (seatedAgain i' seat (m'.withStack []),
      .ok (" ".intercalate (above.reverse.map (Encoder.plain session.registry).encode))) := by
    rw [evaluate_eq host text found' idle', along.clears, along.language, reply']
    rfl
  rw [replied, replied']
  refine ⟨_, resumed seat m (s.vacated seat),
    resumed seat (m'.withStack []) (t.vacated seat), ?_, ?_,
    seatedAgain_found found twins.world_left, seatedAgain_found found' twins.world_right, rfl, rfl⟩
  · intro piece mem
    obtain ⟨v, -, rfl⟩ := List.mem_map.mp mem
    exact Encoder.encode_ne_empty _ v
  · refine ⟨along.language, along.keeps, along.clears, along.rest, m.session,
      (m'.withStack []).session, ?_, ?_, pieces, fun world world' => ?_⟩
    · exact (Association.lookup_put _ _ _ _).trans (if_pos rfl)
    · exact (Association.lookup_put _ _ _ _).trans (if_pos rfl)
    · have again :=
        twins.reseated (Server.common_store ((resumed seat m (s.vacated seat)).vacated seat) world)
        (Server.common_store
          ((resumed seat (m'.withStack []) (t.vacated seat)).vacated seat) world')
        (Server.common_serial _ _) (Server.common_serial _ _)
      rwa [Server.common_world, Server.common_world] at again

/-- A new session, under both policies. -/
theorem alongside_of_new (new : s.IsNew) (new' : t.IsNew) (store : t.store = s.store)
    (serial : t.serial = s.serial) (registry : t.registry = s.registry)
    (language : t.settings.language = s.settings.language)
    (keeps : s.settings.stackPolicy = .accumulate)
    (clears : t.settings.stackPolicy = .consumeOnReply) :
    Alongside seat ⟨s.registry, s.store.frames.size, [], 0⟩ [] (s.seated seat) (t.seated seat) where
  language := language
  keeps := keeps
  clears := clears
  rest := rfl
  sessions := by
    have globals : t.globals = s.globals := new'.globals.trans new.globals.symm
    refine ⟨.new s.registry s.store.frames.size, .new t.registry t.store.frames.size, ?_, ?_, rfl,
      fun world world' => ?_⟩
    · exact (Association.lookup_put _ _ _ _).trans (if_pos rfl)
    · exact (Association.lookup_put _ _ _ _).trans (if_pos rfl)
    · have left := Server.common_store ((s.seated seat).vacated seat) world
      have right := Server.common_store ((t.seated seat).vacated seat) world'
      exact
        { shared := ⟨[], rfl, rfl⟩
          place_left := rfl
          place_right := by
            rw [registry, store]
            rfl
          store := by
            refine right.trans (Eq.trans ?_ left.symm)
            change (t.store.alloc (some t.globals)).1 = (s.store.alloc (some s.globals)).1
            rw [store, globals]
          serial := (Server.common_serial _ _).trans
            (serial.trans (Server.common_serial ((s.seated seat).vacated seat) world).symm)
          world_left := Server.common_world _ _
          world_right := Server.common_world _ _
          natural := new.natural
          left := new.tends left
          right := new'.tends right }

/-- The answers to texts that are sent one after the other. -/
def repliesTo (n : Network) (i : Nat) (seat : Seat) (texts : List String) :
    List (Except Stop String) :=
  (n.attendAll host i (texts.map (.sends seat))).2.map (·.2)

theorem repliesTo_cons (n : Network) (i : Nat) (seat : Seat) (text : String) (texts : List String) :
    repliesTo host n i seat (text :: texts) = (evaluate host n i seat text).2 ::
      repliesTo host (evaluate host n i seat text).1 i seat texts := rfl

/-- Both servers reply to every message, and what the one has told is what the other one tells
now. -/
theorem repliesTo_alongside (texts : List String)
    (calm : ∀ text ∈ texts, Script.Avoids IsTelling text) :
    ∀ {told : List String} {s t : Server} {n n' : Network}, Alongside seat place told s t →
      n.servers[i]? = some s → n'.servers[i']? = some t →
      ∃ parts : List (List String), parts.length = texts.length ∧
        (∀ part ∈ parts, ∀ piece ∈ part, piece ≠ "") ∧
        repliesTo host n' i' seat texts = parts.map (fun part => .ok (" ".intercalate part)) ∧
        repliesTo host n i seat texts = (List.range texts.length).map fun k =>
          .ok (" ".intercalate (told ++ (parts.take (k + 1)).flatten)) := by
  induction texts with
  | nil =>
      intro told s t n n' _ _ _
      exact ⟨[], rfl, nofun, rfl, rfl⟩
  | cons text texts ih =>
      intro told s t n n' along found found'
      obtain ⟨part, s', t', written, along, there, there', reply, reply'⟩ :=
        evaluate_alongside host along found found' (calm text List.mem_cons_self)
      obtain ⟨parts, length, others, replies', replies⟩ :=
        ih (fun text mem => calm text (List.mem_cons_of_mem _ mem)) along there there'
      refine ⟨part :: parts, congrArg (· + 1) length,
        List.forall_mem_cons.mpr ⟨written, others⟩, ?_, ?_⟩
      · rw [repliesTo_cons, reply', replies', List.map_cons]
      · rw [repliesTo_cons, reply, replies, List.length_cons, List.range_succ_eq_map, List.map_cons,
          List.map_map]
        congr 1
        · simp
        · refine List.map_congr_left fun k _ => ?_
          simp [List.append_assoc]

/-- The policy is all that two servers differ in that have been made with the same settings but for
it. -/
theorem new_policy {settings : Settings} {registry : Registry} {number : Nat}
    {policy policy' : StackPolicy}
    (made : Server.new { settings with stackPolicy := policy } registry number = .ok s)
    (made' : Server.new { settings with stackPolicy := policy' } registry number = .ok t) :
    s.settings = { settings with stackPolicy := policy } ∧
      t = { s with settings := { settings with stackPolicy := policy' } } := by
  unfold Server.new at made made'
  change ((Server.shorthands registry settings.bootstrap).foldlM (Server.bindShorthand registry 0)
    (Service.globalsOf number, 0) >>= _) = _ at made
  change ((Server.shorthands registry settings.bootstrap).foldlM (Server.bindShorthand registry 0)
    (Service.globalsOf number, 0) >>= _) = _ at made'
  generalize (Server.shorthands registry settings.bootstrap).foldlM
    (Server.bindShorthand registry 0) (Service.globalsOf number, 0) = bound at made made'
  cases bound with
  | error fault => exact nomatch made
  | ok state =>
      cases made
      cases made'
      exact ⟨rfl, rfl⟩

/-- What is asked of two servers that are the same but for the policy, in the same order: others may
ask in between, without reserved names.  On the session of the seat, which sends texts without
telling names, the server that clears the stack answers everything, and the one that keeps it
answers with everything that the other one has answered up to then. -/
theorem policies_agree {settings : Settings} {registry : Registry} {number : Nat}
    (natural : registry.IsNatural)
    (made : Server.new { settings with stackPolicy := .accumulate } registry number = .ok s)
    (made' : Server.new { settings with stackPolicy := .consumeOnReply } registry number = .ok t)
    (found : n.servers[i]? = some s) (found' : n'.servers[i']? = some t) (requests : List Request)
    (avoids : ∀ request ∈ requests, request.Avoids) (texts : List String)
    (own : requests.filter (·.seat = seat) = .opens seat :: texts.map (.sends seat))
    (calm : ∀ text ∈ texts, Script.Avoids IsTelling text) :
    ∃ replies : List String, replies.length = texts.length ∧
      answersOf seat (n'.attendAll host i' requests).2 = replies.map .ok ∧
      answersOf seat (n.attendAll host i requests).2 =
        (List.range texts.length).map fun k => .ok (together (replies.take (k + 1))) := by
  have new := Server.isNew_of_new natural made
  have new' := Server.isNew_of_new natural made'
  obtain ⟨same, other⟩ := new_policy made made'
  have along : Server.Alongside seat _ [] (s.seated seat) (t.seated seat) :=
    alongside_of_new new new' (by rw [other]) (by rw [other]) (by rw [other]) (by rw [other, same])
      (by rw [same]) (by rw [other])
  have alone : ∀ {s : Server} {n : Network} {i : Nat}, s.IsNew → n.servers[i]? = some s →
      answersOf seat (n.attendAll host i requests).2 =
        repliesTo host (n.modifyServer i (·.seated seat)) i seat texts := by
    intro s n i new found
    obtain ⟨answers, -⟩ := attendAll_apart host seat requests avoids (apart_of_new new) found found
    rw [answers, own, attendAll_cons]
    rfl
  obtain ⟨parts, length, written, replies', replies⟩ := repliesTo_alongside host texts calm along
    (servers_modifyServer found (·.seated seat)) (servers_modifyServer found' (·.seated seat))
  refine ⟨parts.map (" ".intercalate ·), by rw [List.length_map, length], ?_, ?_⟩
  · rw [alone new' found', replies', List.map_map]
    rfl
  · rw [alone new found, replies]
    refine List.map_congr_left fun k _ => ?_
    rw [List.nil_append, ← List.map_take, together_parts _ fun part mem =>
      written part (List.mem_of_mem_take mem)]

/-- Two connections, one of which binds a name without any value to show, misspells it, and shows
it. -/
def misspelled : List Request :=
  [.opens (.connection 1), .opens (.connection 2), .sends (.connection 1) "x = 1",
    .sends (.connection 2) "x", .sends (.connection 1) "y", .sends (.connection 1) "x"]

theorem misspelled_avoids {hidden : String → Prop} (x : ¬ hidden "x") (y : ¬ hidden "y") :
    ∀ text ∈ ["x = 1", "y", "x"], Script.Avoids hidden text := by
  have binding : Script.tokenize "x = 1" = .ok [⟨.name "x", ⟨1, 1⟩⟩, ⟨.symbol .assign, ⟨1, 3⟩⟩,
      ⟨.int 1, ⟨1, 5⟩⟩, ⟨.finish, ⟨1, 6⟩⟩] := by cbv
  have other : Script.tokenize "y" = .ok [⟨.name "y", ⟨1, 1⟩⟩, ⟨.finish, ⟨1, 2⟩⟩] := by cbv
  have name : Script.tokenize "x" = .ok [⟨.name "x", ⟨1, 1⟩⟩, ⟨.finish, ⟨1, 2⟩⟩] := by cbv
  simp only [List.forall_mem_cons]
  refine ⟨avoids_of_tokenize binding (by simp [Script.Token.Avoids, x]),
    avoids_of_tokenize other (by simp [Script.Token.Avoids, y]),
    avoids_of_tokenize name (by simp [Script.Token.Avoids, x]), List.forall_mem_nil _⟩

theorem new_loopback_policy (policy : StackPolicy) :
    ∃ s, Server.new { Settings.loopback with stackPolicy := policy } .standard 0 = .ok s := by
  have succeeds : (Server.new { Settings.loopback with stackPolicy := policy } .standard 0).isOk =
      true := by
    cases policy <;> cbv
  cases made : Server.new { Settings.loopback with stackPolicy := policy } .standard 0 with
  | ok s => exact ⟨s, rfl⟩
  | error fault =>
      rw [made] at succeeds
      cases succeeds

theorem policies_agree_misspelled :
    ∃ s t, Registry.standard.IsNatural ∧
      Server.new { Settings.loopback with stackPolicy := .accumulate } .standard 0 = .ok s ∧
      Server.new { Settings.loopback with stackPolicy := .consumeOnReply } .standard 0 = .ok t ∧
      (∀ request ∈ misspelled, request.Avoids) ∧
      misspelled.filter (·.seat = .connection 1) =
        .opens (.connection 1) :: ["x = 1", "y", "x"].map (.sends (.connection 1)) ∧
      (∀ text ∈ ["x = 1", "y", "x"], Script.Avoids IsTelling text) ∧
      ∃ replies : List String, replies.length = 3 ∧
        answersOf (.connection 1) (attendAll Network.host { empty false with servers := #[t] } 0
          misspelled).2 = replies.map .ok ∧
        answersOf (.connection 1) (attendAll Network.host { empty false with servers := #[s] } 0
          misspelled).2 = (List.range 3).map fun k => .ok (together (replies.take (k + 1))) := by
  obtain ⟨s, made⟩ := new_loopback_policy .accumulate
  obtain ⟨t, made'⟩ := new_loopback_policy .consumeOnReply
  have reserved : ∀ text ∈ ["x = 1", "y", "x"], Script.Avoids IsReserved text :=
    misspelled_avoids (by decide) (by decide)
  have telling : ∀ text ∈ ["x = 1", "y", "x"], Script.Avoids IsTelling text :=
    misspelled_avoids (by decide) (by decide)
  have avoids : ∀ request ∈ misspelled, request.Avoids := by
    simp only [misspelled, List.forall_mem_cons]
    exact ⟨trivial, trivial, reserved _ (by decide), reserved _ (by decide), reserved _ (by decide),
      reserved _ (by decide), List.forall_mem_nil _⟩
  have own : misspelled.filter (·.seat = .connection 1) =
      .opens (.connection 1) :: ["x = 1", "y", "x"].map (.sends (.connection 1)) := by rfl
  exact ⟨s, t, Registry.standard_isNatural, made, made', avoids, own, telling,
    policies_agree Network.host Registry.standard_isNatural made made' rfl rfl
      misspelled avoids _ own telling⟩

end Network

end PeerScript
